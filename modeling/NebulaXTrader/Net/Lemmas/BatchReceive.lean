import Mathlib.Data.List.Basic
import Mathlib.Data.List.Nodup
import NebulaXTrader.Net.BatchReceive

/-!
This module contains the invariant of the batch path: every buffer is in one place, and what the calls have returned
together with what waits are the datagrams in the order of their completion.
-/

namespace NebulaXTrader

namespace BatchReceiver

open IoUringPoller (MAX_BUFFERS BUF_SIZE)

variable {s s' : BatchReceiver}

def pcBuf (pc : Pc) : Option Nat :=
  match pc with
  | .seen _ _ _ b => some b
  | .store _ _ _ b => some b
  | .taken _ b _ => some b
  | .copied b _ _ _ => some b
  | _ => none

def buffers (s : BatchReceiver) : List Nat := (pcBuf s.pc).toList ++ s.bufIdx.toList ++ s.poller.places

def total (s : BatchReceiver) : List (Int × List UInt8) := s.delivered ++ s.waiting

structure Inv (s : BatchReceiver) : Prop where
  buffers : s.buffers.Perm (List.range MAX_BUFFERS)
  small : ∀ x ∈ s.completed, x.length ≤ BUF_SIZE
  in_order : s.running = true → s.total = s.completed.map received
  once : List.Sublist s.total (s.completed.map received)
  zero : ∀ r ∈ s.returns, r.1 = 0 → s.running = false
  stays : s.left = true → s.stopFlag = true ∨ s.running = false

theorem Inv.delivers (h : Inv s) : Delivers s where
  in_order := h.in_order
  once := (List.sublist_append_left _ _).trans h.once
  zero := h.zero
  stays := h.stays

/--
A step of the receiving thread inside of a call, or of the kernel without a datagram.
-/
structure Moved (s s' : BatchReceiver) : Prop where
  buffers : s'.buffers.Perm s.buffers
  waiting : s'.waiting = s.waiting
  completed : s'.completed = s.completed
  running : s'.running = s.running
  stopFlag : s'.stopFlag = s.stopFlag
  left : s'.left = s.left
  returns : s'.returns = s.returns

theorem Inv.moved (h : Inv s) (hmoved : Moved s s') : Inv s' := by
  have htotal : s'.total = s.total := by
    unfold total delivered
    rw [hmoved.returns, hmoved.waiting]
  constructor
  . exact hmoved.buffers.trans h.buffers
  . rw [hmoved.completed]
    exact h.small
  . rw [hmoved.running, htotal, hmoved.completed]
    exact h.in_order
  . rw [htotal, hmoved.completed]
    exact h.once
  . rw [hmoved.returns, hmoved.running]
    exact h.zero
  . rw [hmoved.left, hmoved.stopFlag, hmoved.running]
    exact h.stays

/-!
The operations of the poller that only move buffers between the free ones and the submission queue.
-/

structure SameData (p p' : IoUringPoller) : Prop where
  bufs : p'.bufs = p.bufs
  cq : p'.cq = p.cq
  readyItems : p'.readyItems = p.readyItems

section

variable {p p' : IoUringPoller} {b : Nat}

theorem SameData.refl (p : IoUringPoller) : SameData p p := ⟨rfl, rfl, rfl⟩

theorem SameData.trans {p'' : IoUringPoller} (h : SameData p p') (h' : SameData p' p'') : SameData p p'' where
  bufs := h'.bufs.trans h.bufs
  cq := h'.cq.trans h.cq
  readyItems := h'.readyItems.trans h.readyItems

theorem sameData_freeBuffer (p : IoUringPoller) (b : Nat) : SameData p (p.freeBuffer b) := by
  unfold IoUringPoller.freeBuffer
  split
  . exact ⟨rfl, rfl, rfl⟩
  . exact SameData.refl p

theorem sameData_submit (p : IoUringPoller) (n : Nat) : SameData p (p.submit n) := ⟨rfl, rfl, rfl⟩

theorem sameData_resubmitRecv (p : IoUringPoller) (b : Nat) (sqe : Bool) : SameData p (p.resubmitRecv b sqe) := by
  unfold IoUringPoller.resubmitRecv IoUringPoller.fillRecvSqe
  split
  . exact ⟨rfl, rfl, rfl⟩
  . exact sameData_freeBuffer p b

theorem sameData_submitInflight (p : IoUringPoller) (count sqes : Nat)
    : SameData p (p.submitInflight count sqes) := by
  induction count generalizing p sqes with
  | zero => exact SameData.refl p
  | succ count ih =>
    unfold IoUringPoller.submitInflight
    split
    . exact SameData.refl p
    . next b p' halloc =>
      have hp' : SameData p p' := by
        unfold IoUringPoller.allocBuffer at halloc
        split at halloc
        . cases halloc
        . cases halloc
          exact ⟨rfl, rfl, rfl⟩
      split
      . exact hp'.trans (sameData_freeBuffer p' b)
      . next p'' hfill =>
        have hp'' : SameData p' p'' := by
          unfold IoUringPoller.fillRecvSqe at hfill
          split at hfill
          . cases hfill
            exact ⟨rfl, rfl, rfl⟩
          . cases hfill
        exact (hp'.trans hp'').trans (ih p'' (sqes - 1))

theorem SameData.item (h : SameData p p') (e : Nat × Int) : item p' e = item p e := by
  unfold BatchReceiver.item
  rw [h.bufs]

theorem SameData.ofCqe (h : SameData p p') (e : IoUringPoller.Cqe) : ofCqe p' e = ofCqe p e := by
  cases e with
  | timeout res => rfl
  | recv b res =>
    unfold BatchReceiver.ofCqe
    dsimp only
    rw [h.item]

theorem SameData.waiting (h : SameData s.poller s'.poller) (hhand : s'.inHand = s.inHand)
    (hentry : s'.inEntry = s.inEntry) : s'.waiting = s.waiting := by
  have hitem : BatchReceiver.item s'.poller = BatchReceiver.item s.poller := funext h.item
  have hcqe : BatchReceiver.ofCqe s'.poller = BatchReceiver.ofCqe s.poller := funext h.ofCqe
  unfold BatchReceiver.waiting
  rw [hhand, hentry, hitem, hcqe, h.cq, h.readyItems]

theorem SameData.waiting_of_pc (h : SameData s.poller s'.poller) (hpc : s'.pc = s.pc) (hentry : s'.entry = s.entry)
    : s'.waiting = s.waiting := by
  have hitem : BatchReceiver.item s'.poller = BatchReceiver.item s.poller := funext h.item
  apply h.waiting
  . unfold inHand
    rw [hpc, hitem]
  . unfold inEntry
    rw [hpc, hitem, hentry]

end

/-!
The steps of the receiving thread.
-/

theorem Inv.room (h : Inv s) {b : Nat} (hpc : pcBuf s.pc = some b)
    : s.poller.free.length < MAX_BUFFERS ∧ s.poller.readyLen < MAX_BUFFERS := by
  have hlength := h.buffers.length_eq
  unfold BatchReceiver.buffers at hlength
  rw [hpc] at hlength
  unfold IoUringPoller.places IoUringPoller.readyItems at hlength
  simp only [List.length_append, List.length_map, CircularQueue.length_items, List.length_range, Option.toList_some,
    List.length_singleton] at hlength
  constructor
  . omega
  . omega

theorem buffers_of_places (hpc : pcBuf s'.pc = pcBuf s.pc) (hidx : s'.bufIdx = s.bufIdx)
    (hplaces : s'.poller.places.Perm s.poller.places) : s'.buffers.Perm s.buffers := by
  unfold BatchReceiver.buffers
  rw [hpc, hidx]
  exact hplaces.append_left _

theorem buffers_put {b : Nat} (hpc : pcBuf s.pc = some b) (hpc' : pcBuf s'.pc = none) (hidx : s'.bufIdx = s.bufIdx)
    (hplaces : s'.poller.places.Perm (b :: s.poller.places)) : s'.buffers.Perm s.buffers := by
  unfold BatchReceiver.buffers
  rw [hpc, hpc', hidx]
  exact (hplaces.append_left _).trans List.perm_middle

theorem buffers_get {b : Nat} (hpc : pcBuf s.pc = none) (hpc' : pcBuf s'.pc = some b) (hidx : s'.bufIdx = s.bufIdx)
    (hplaces : s.poller.places.Perm (b :: s'.poller.places)) : s'.buffers.Perm s.buffers :=
  (buffers_put hpc' hpc hidx.symm hplaces).symm

theorem moved_pc {pc : Pc} (hbuf : pcBuf pc = pcBuf s.pc) (hhand : inHand { s with pc := pc } = s.inHand)
    (hentry : inEntry { s with pc := pc } = s.inEntry) : Moved s { s with pc := pc } := by
  refine ⟨?_, ?_, rfl, rfl, rfl, rfl, rfl⟩
  . exact buffers_of_places hbuf rfl (List.Perm.refl _)
  . apply SameData.waiting
    . exact SameData.refl s.poller
    . exact hhand
    . exact hentry

theorem inHand_of_pcBuf (h : pcBuf s.pc = none) : s.inHand = [] := by
  unfold inHand
  cases hpc : s.pc with
  | taken len b nbytes =>
    rw [hpc] at h
    cases h
  | copied b nbytes n out =>
    rw [hpc] at h
    cases h
  | _ => rfl

theorem inEntry_of_pcBuf (h : pcBuf s.pc = none) : s.inEntry = [] := by
  unfold inEntry
  cases hpc : s.pc with
  | seen len added sawError b =>
    rw [hpc] at h
    cases h
  | store len added sawError b =>
    rw [hpc] at h
    cases h
  | _ => rfl

theorem moved_idle {p : IoUringPoller} {pc : Pc} (hs : pcBuf s.pc = none) (hpc : pcBuf pc = none)
    (hplaces : p.places.Perm s.poller.places) (hsame : SameData s.poller p)
    : Moved s { s with poller := p, pc := pc } := by
  refine ⟨?_, ?_, rfl, rfl, rfl, rfl, rfl⟩
  . apply buffers_of_places
    . rw [hs]
      exact hpc
    . rfl
    . exact hplaces
  . apply SameData.waiting
    . exact hsame
    . rw [inHand_of_pcBuf hs]
      exact inHand_of_pcBuf hpc
    . rw [inEntry_of_pcBuf hs]
      exact inEntry_of_pcBuf hpc

theorem moved_between {pc : Pc} (hs : pcBuf s.pc = none) (hpc : pcBuf pc = none) : Moved s { s with pc := pc } :=
  moved_idle hs hpc (List.Perm.refl _) (SameData.refl s.poller)

theorem moved_begin (h : Inv s) (hpc : s.pc = .begin) (sqes n : Nat)
    : Moved s { s with poller := (s.poller.submitInflight MAX_BUFFERS sqes).submit n, pc := .idle } := by
  have hfree : s.poller.free.length ≤ MAX_BUFFERS := by
    have hlength := h.buffers.length_eq
    unfold BatchReceiver.buffers IoUringPoller.places at hlength
    simp only [List.length_append, List.length_range] at hlength
    omega
  apply moved_idle
  . rw [hpc]
    rfl
  . rfl
  . exact (IoUringPoller.places_submit n).trans (IoUringPoller.places_submitInflight hfree)
  . exact (sameData_submitInflight _ _ _).trans (sameData_submit _ n)

theorem moved_wait {len : Nat} (hpc : s.pc = .wait len) (n : Nat)
    : Moved s { s with poller := s.poller.submit n, pc := .reap len 0 false } := by
  apply moved_idle
  . rw [hpc]
    rfl
  . rfl
  . exact IoUringPoller.places_submit n
  . exact sameData_submit s.poller n

theorem moved_reap_timeout {len added : Nat} {sawError : Bool} {res : Int} {cq : List IoUringPoller.Cqe}
    (hpc : s.pc = .reap len added sawError) (hcq : s.poller.cq = .timeout res :: cq)
    : Moved s { s with poller := { s.poller with cq := cq } } := by
  refine ⟨?_, ?_, rfl, rfl, rfl, rfl, rfl⟩
  . unfold BatchReceiver.buffers IoUringPoller.places IoUringPoller.readyItems
    rw [hcq]
    exact List.Perm.refl _
  . unfold waiting inHand inEntry
    rw [hcq, hpc]
    rfl

theorem moved_reap_recv {len added b : Nat} {sawError : Bool} {res : Int} {cq : List IoUringPoller.Cqe}
    (hpc : s.pc = .reap len added sawError) (hcq : s.poller.cq = .recv b res :: cq)
    : Moved s { s with
        poller := { s.poller with cq := cq }
        entry := res
        pc := .seen len added sawError b } := by
  refine ⟨?_, ?_, rfl, rfl, rfl, rfl, rfl⟩
  . apply buffers_get
    . rw [hpc]
      rfl
    . rfl
    . rfl
    . exact IoUringPoller.places_seen hcq
  . unfold waiting inHand inEntry
    rw [hcq, hpc, List.filterMap_cons]
    have hitem : ofCqe s.poller (.recv b res) = if 0 ≤ res then some (item s.poller (b, res)) else none := rfl
    rw [hitem]
    dsimp only
    split
    . rw [List.append_nil, List.append_assoc _ [_]]
      rfl
    . rfl

theorem moved_seen (h : Inv s) {len added b : Nat} {sawError : Bool} (hpc : s.pc = .seen len added sawError b)
    : Moved s (s.seen len added sawError b) := by
  unfold BatchReceiver.seen
  split
  . next hentry =>
    apply moved_pc
    . rw [hpc]
      rfl
    . unfold inHand
      rw [hpc]
    . unfold inEntry
      rw [hpc]
      dsimp only
      rw [if_pos hentry]
  . next hentry =>
    refine ⟨?_, ?_, rfl, rfl, rfl, rfl, rfl⟩
    . have hbuf : pcBuf s.pc = some b := by
        rw [hpc]
        rfl
      apply buffers_put hbuf
      . rfl
      . rfl
      . exact IoUringPoller.places_freeBuffer (h.room hbuf).1
    . apply SameData.waiting
      . exact sameData_freeBuffer _ b
      . unfold inHand
        rw [hpc]
      . unfold inEntry
        rw [hpc]
        dsimp only
        rw [if_neg hentry]

theorem moved_store (h : Inv s) {len added b : Nat} {sawError : Bool} (hpc : s.pc = .store len added sawError b)
    : Moved s (s.store len added sawError b) := by
  have hbuf : pcBuf s.pc = some b := by
    rw [hpc]
    rfl
  have hroom := h.room hbuf
  unfold BatchReceiver.store
  rw [if_pos hroom.2]
  refine ⟨?_, ?_, rfl, rfl, rfl, rfl, rfl⟩
  . apply buffers_put hbuf
    . rfl
    . rfl
    . exact IoUringPoller.places_pushReady s.entry hroom.2
  . have hready := IoUringPoller.readyItems_pushReady (b := b) s.entry hroom.2
    unfold waiting inHand inEntry
    rw [hpc]
    dsimp only
    rw [hready, List.map_append, List.append_nil]
    rfl

theorem moved_take {len : Nat} {e : Nat × Int} {p : IoUringPoller} (hpc : s.pc = .take len)
    (htake : s.poller.takeReady = some (e, p)) : Moved s { s with poller := p, pc := .taken len e.1 e.2 } := by
  refine ⟨?_, ?_, rfl, rfl, rfl, rfl, rfl⟩
  . apply buffers_get
    . rw [hpc]
      rfl
    . rfl
    . rfl
    . exact IoUringPoller.places_takeReady htake
  . obtain ⟨head, tail, rfl, hready⟩ := IoUringPoller.takeReady_cases htake
    unfold waiting inHand inEntry
    rw [hpc, hready]
    rfl

theorem Inv.toSize_eq (h : Inv s) {r : Int × List UInt8} (hmem : r ∈ s.waiting) : (toSize r.1 : Int) = r.1 := by
  have hin := h.once.subset (List.mem_append_right _ hmem)
  obtain ⟨x, hx, rfl⟩ := List.mem_map.1 hin
  have hsmall := h.small x hx
  unfold BUF_SIZE at hsmall
  unfold toSize received
  dsimp only
  omega

theorem moved_taken (h : Inv s) {len b : Nat} {nbytes : Int} (hpc : s.pc = .taken len b nbytes)
    (hfits : toSize nbytes ≤ len)
    : Moved s { s with
        pc := .copied b nbytes (min (toSize nbytes) len) ((s.poller.bufs b).take (min (toSize nbytes) len)) } := by
  have hhand : s.inHand = [item s.poller (b, nbytes)] := by
    unfold inHand
    rw [hpc]
  have hsize : (toSize nbytes : Int) = nbytes := by
    apply h.toSize_eq (r := item s.poller (b, nbytes))
    unfold waiting
    rw [hhand]
    exact List.mem_cons_self
  apply moved_pc
  . rw [hpc]
    rfl
  . rw [hhand, Nat.min_eq_left hfits]
    unfold inHand item
    dsimp only
    rw [hsize]
  . unfold inEntry
    rw [hpc]

/-!
The steps of the kernel.
-/

theorem moved_timeout (s : BatchReceiver) (res : Int) : Moved s { s with poller := s.poller.timeout res } := by
  refine ⟨?_, ?_, rfl, rfl, rfl, rfl, rfl⟩
  . unfold BatchReceiver.buffers IoUringPoller.places IoUringPoller.readyItems IoUringPoller.timeout
    dsimp only
    rw [List.filterMap_append]
    show (_ ++ _ ++ (_ ++ (_ ++ []) ++ _)).Perm _
    rw [List.append_nil]
  . unfold waiting IoUringPoller.timeout
    dsimp only
    rw [List.filterMap_append]
    show _ ++ (_ ++ []) = _
    rw [List.append_nil]
    rfl

theorem moved_fail {b : Nat} {res : Int} (hmem : b ∈ s.poller.inflight) (hres : res < 0)
    : Moved s { s with poller := s.poller.fail b res } := by
  refine ⟨?_, ?_, rfl, rfl, rfl, rfl, rfl⟩
  . apply List.Perm.append_left
    exact IoUringPoller.places_completed s.poller.bufs res hmem
  . have hcqe : ofCqe (s.poller.fail b res) (.recv b res) = none := if_neg (Int.not_le.2 hres)
    unfold waiting
    have hcq : (s.poller.fail b res).cq = s.poller.cq ++ [.recv b res] := rfl
    dsimp only
    rw [hcq, List.filterMap_append, List.filterMap_cons, hcqe]
    show _ ++ (_ ++ []) = _
    rw [List.append_nil]
    rfl

theorem moved_reuse {res : Int} (hclean : Clean s (.reuse res)) : Moved s { s with entry := res } := by
  refine ⟨List.Perm.refl _, ?_, rfl, rfl, rfl, rfl, rfl⟩
  apply SameData.waiting
  . exact SameData.refl s.poller
  . rfl
  . unfold Clean at hclean
    unfold inEntry
    dsimp only at hclean ⊢
    split
    . next hpc =>
      rw [hpc] at hclean
      rw [hclean]
    . next hpc =>
      rw [hpc] at hclean
      rw [hclean]
    . rfl

theorem Inv.apart (h : Inv s) {b : Nat} (hmem : b ∈ s.poller.inflight)
    : pcBuf s.pc ≠ some b ∧ (∀ e ∈ s.poller.readyItems, e.1 ≠ b) ∧ ∀ e ∈ s.poller.cq, e.buf ≠ some b := by
  have hnodup := h.buffers.nodup_iff.2 List.nodup_range
  have hcount := List.nodup_iff_count_le_one.1 hnodup b
  have hin := List.count_pos_iff.2 hmem
  unfold BatchReceiver.buffers IoUringPoller.places at hcount
  simp only [List.count_append] at hcount
  refine ⟨?_, ?_, ?_⟩
  . intro hpc
    rw [hpc, Option.toList_some, List.count_singleton_self] at hcount
    omega
  . rintro e he rfl
    have hpos := List.count_pos_iff.2 (List.mem_map_of_mem (f := Prod.fst) he)
    omega
  . intro e he hbuf
    have hpos := List.count_pos_iff.2 (List.mem_filterMap.2 ⟨e, he, hbuf⟩)
    omega

theorem item_complete {p : IoUringPoller} {b : Nat} (x : List UInt8) {e : Nat × Int} (hne : e.1 ≠ b)
    : item (p.complete b x) e = item p e := by
  unfold item IoUringPoller.complete
  dsimp only
  rw [Function.update_of_ne hne]

theorem item_complete_self (p : IoUringPoller) (b : Nat) {x : List UInt8} (hx : x.length ≤ BUF_SIZE)
    : item (p.complete b x) (b, x.length) = received x := by
  have hsize : toSize x.length = x.length := by
    unfold BUF_SIZE at hx
    unfold toSize
    omega
  unfold item received IoUringPoller.complete
  dsimp only
  rw [Function.update_self, hsize, List.take_left' rfl]

theorem Inv.waiting_complete (h : Inv s) {b : Nat} {x : List UInt8} (hmem : b ∈ s.poller.inflight)
    (hx : x.length ≤ BUF_SIZE) (completed : List (List UInt8))
    : waiting { s with poller := s.poller.complete b x, completed := completed } = s.waiting ++ [received x] := by
  have hapart := h.apart hmem
  have hhand : inHand { s with poller := s.poller.complete b x, completed := completed } = s.inHand := by
    have hpc := hapart.1
    unfold inHand
    dsimp only
    split
    . next hpc' =>
      rw [hpc'] at hpc
      rw [item_complete x (fun heq => hpc (congrArg some heq))]
    . rfl
    . rfl
  have hentry : inEntry { s with poller := s.poller.complete b x, completed := completed } = s.inEntry := by
    have hpc := hapart.1
    unfold inEntry
    dsimp only
    split
    . next hpc' =>
      rw [hpc'] at hpc
      rw [item_complete x (fun heq => hpc (congrArg some heq))]
    . next hpc' =>
      rw [hpc'] at hpc
      rw [item_complete x (fun heq => hpc (congrArg some heq))]
    . rfl
  have hready : (s.poller.complete b x).readyItems.map (item (s.poller.complete b x)) =
      s.poller.readyItems.map (item s.poller) := by
    apply List.map_congr_left
    intro e he
    exact item_complete x (hapart.2.1 e he)
  have hcq : s.poller.cq.filterMap (ofCqe (s.poller.complete b x)) = s.poller.cq.filterMap (ofCqe s.poller) := by
    apply List.filterMap_congr
    intro e he
    cases e with
    | timeout res => rfl
    | recv b' res =>
      unfold ofCqe
      dsimp only
      rw [item_complete x (fun heq => hapart.2.2 _ he (congrArg some heq))]
  have hself : ofCqe (s.poller.complete b x) (.recv b x.length) = some (received x) := by
    unfold ofCqe
    dsimp only
    rw [if_pos (Int.natCast_nonneg _), item_complete_self s.poller b hx]
  have happend : (s.poller.complete b x).cq = s.poller.cq ++ [.recv b x.length] := rfl
  unfold waiting
  rw [hhand, hentry]
  dsimp only
  rw [hready, happend, List.filterMap_append, hcq, List.filterMap_cons, hself, ← List.append_assoc]
  rfl

theorem Inv.complete (h : Inv s) {b : Nat} {x : List UInt8} (hmem : b ∈ s.poller.inflight)
    (hx : x.length ≤ BUF_SIZE)
    : Inv { s with poller := s.poller.complete b x, completed := s.completed ++ [x] } := by
  have htotal : total { s with poller := s.poller.complete b x, completed := s.completed ++ [x] } =
      s.total ++ [received x] := by
    unfold total
    rw [h.waiting_complete hmem hx, ← List.append_assoc]
    rfl
  constructor
  . apply List.Perm.trans _ h.buffers
    apply List.Perm.append_left
    exact IoUringPoller.places_completed _ _ hmem
  . intro y hy
    rcases List.mem_append.1 hy with hold | hnew
    . exact h.small y hold
    . rw [List.mem_singleton.1 hnew]
      exact hx
  . intro hrunning
    rw [htotal, h.in_order hrunning, List.map_append]
    rfl
  . rw [htotal, List.map_append]
    exact h.once.append (List.Sublist.refl _)
  . exact h.zero
  . exact h.stays

/-!
The returns, and the calls of `stop`.
-/

theorem delivered_ret (s : BatchReceiver) (n : Int) (out : List UInt8)
    : (s.ret n out).delivered = s.delivered ++ if 0 < n then [(n, out)] else [] := by
  unfold delivered ret
  rw [List.filter_append, List.filter_singleton]
  simp

theorem Inv.ret_none (h : Inv s) {n : Int} (hbuf : pcBuf s.pc = none) (hn : n ≤ 0)
    (hzero : n = 0 → s.running = false) (hstay : s.stopFlag = true ∨ s.running = false) : Inv (s.ret n []) := by
  have htotal : (s.ret n []).total = s.total := by
    unfold total
    rw [delivered_ret, if_neg (Int.not_lt.2 hn), List.append_nil]
    congr 1
    apply SameData.waiting
    . exact SameData.refl s.poller
    . exact (inHand_of_pcBuf hbuf).symm
    . exact (inEntry_of_pcBuf hbuf).symm
  constructor
  . have hbuffers := h.buffers
    unfold BatchReceiver.buffers at hbuffers ⊢
    rw [hbuf] at hbuffers
    exact hbuffers
  . exact h.small
  . rw [htotal]
    exact h.in_order
  . rw [htotal]
    exact h.once
  . intro r hr hr0
    rcases List.mem_append.1 hr with hold | hnew
    . exact h.zero r hold hr0
    . rw [List.mem_singleton.1 hnew] at hr0
      exact hzero hr0
  . intro _
    exact hstay

theorem waiting_copied {b n : Nat} {nbytes : Int} {out : List UInt8} (hpc : s.pc = .copied b nbytes n out) (sqe : Bool)
    : s.waiting = ((n : Int), out) :: ({ s with poller := s.poller.resubmitRecv b sqe }.ret n out).waiting := by
  have hsame : ({ s with poller := s.poller.resubmitRecv b sqe }.ret n out).waiting =
      { s with pc := .idle }.waiting := by
    apply SameData.waiting
    . exact sameData_resubmitRecv _ b sqe
    . rfl
    . rfl
  rw [hsame]
  unfold waiting inHand inEntry
  rw [hpc]
  rfl

theorem Inv.resubmit (h : Inv s) {b n : Nat} {nbytes : Int} {out : List UInt8} (hpc : s.pc = .copied b nbytes n out)
    (sqe : Bool) (hzero : n = 0 → s.running = false)
    : Inv ({ s with poller := s.poller.resubmitRecv b sqe }.ret n out) := by
  have hbuf : pcBuf s.pc = some b := by
    rw [hpc]
    rfl
  have hroom := h.room hbuf
  have hwaiting := waiting_copied hpc sqe
  have hdelivered := delivered_ret { s with poller := s.poller.resubmitRecv b sqe } n out
  generalize hs' : { s with poller := s.poller.resubmitRecv b sqe }.ret n out = s' at hwaiting hdelivered
  have hcompleted : s'.completed = s.completed := by
    rw [← hs']
    rfl
  have hrunning : s'.running = s.running := by
    rw [← hs']
    rfl
  -- an empty datagram counts for a stop, the others join what has been returned
  have htotal : s'.total = s.total ∨ (s.running = false ∧ List.Sublist s'.total s.total) := by
    unfold total
    rw [hwaiting, hdelivered]
    rcases Nat.eq_zero_or_pos n with h0 | hpos
    . right
      refine ⟨hzero h0, ?_⟩
      rw [if_neg (by omega), List.append_nil]
      apply List.Sublist.append (List.Sublist.refl _)
      exact List.sublist_cons_self _ _
    . left
      rw [if_pos (by omega), List.append_assoc]
      rfl
  constructor
  . apply List.Perm.trans _ h.buffers
    rw [← hs']
    apply buffers_put hbuf
    . rfl
    . rfl
    . exact IoUringPoller.places_resubmitRecv sqe hroom.1
  . rw [hcompleted]
    exact h.small
  . rw [hcompleted, hrunning]
    intro hrun
    cases htotal with
    | inl heq =>
      rw [heq]
      exact h.in_order hrun
    | inr hstop =>
      rw [hstop.1] at hrun
      cases hrun
  . rw [hcompleted]
    cases htotal with
    | inl heq =>
      rw [heq]
      exact h.once
    | inr hstop => exact hstop.2.trans h.once
  . rw [hrunning, ← hs']
    intro r hr hr0
    rcases List.mem_append.1 hr with hold | hnew
    . exact h.zero r hold hr0
    . rw [List.mem_singleton.1 hnew] at hr0
      exact hzero (Int.ofNat.inj hr0)
  . rw [hrunning, ← hs']
    intro hleft
    rcases Bool.or_eq_true_iff.1 hleft with hold | hnew
    . exact h.stays hold
    . right
      have hn : (n : Int) ≤ 0 := of_decide_eq_true hnew
      apply hzero
      omega

theorem Inv.setStop (h : Inv s) : Inv { s with stopFlag := true } where
  buffers := h.buffers
  small := h.small
  in_order := h.in_order
  once := h.once
  zero := h.zero
  stays := fun _ => Or.inl rfl

theorem Inv.stopped (h : Inv s) (hbuffers : s'.buffers.Perm s.buffers) (hwaiting : List.Sublist s'.waiting s.waiting)
    (hcompleted : s'.completed = s.completed) (hreturns : s'.returns = s.returns) (hrunning : s'.running = false)
    : Inv s' := by
  constructor
  . exact hbuffers.trans h.buffers
  . rw [hcompleted]
    exact h.small
  . rw [hrunning]
    intro hrun
    cases hrun
  . rw [hcompleted]
    apply List.Sublist.trans _ h.once
    unfold total delivered
    rw [hreturns]
    exact (List.Sublist.refl _).append hwaiting
  . intro _ _ _
    exact hrunning
  . intro _
    exact Or.inr hrunning

theorem Inv.stop (h : Inv s) : Inv s.stop := by
  unfold BatchReceiver.stop
  split
  . split
    . apply h.stopped
      . exact List.Perm.refl _
      . exact List.Sublist.refl _
      . rfl
      . rfl
      . rfl
    . next b hidx =>
      have hfree : s.poller.free.length < MAX_BUFFERS := by
        have hlength := h.buffers.length_eq
        unfold BatchReceiver.buffers IoUringPoller.places at hlength
        rw [hidx] at hlength
        simp only [List.length_append, List.length_range, Option.toList_some, List.length_singleton] at hlength
        omega
      apply h.stopped
      . unfold BatchReceiver.buffers
        rw [hidx, Option.toList_some, Option.toList_none, List.append_nil, List.append_assoc]
        apply List.Perm.append_left
        exact IoUringPoller.places_freeBuffer hfree
      . have hsame :
            waiting { s with running := false, bufIdx := none, poller := s.poller.freeBuffer b } = s.waiting := by
          apply SameData.waiting_of_pc
          . exact sameData_freeBuffer s.poller b
          . rfl
          . rfl
        rw [hsame]
      . rfl
      . rfl
      . rfl
  . exact h

theorem Inv.discard (h : Inv s) {e : Nat × Int} {p : IoUringPoller} (htake : s.poller.takeReady = some (e, p))
    (hrunning : s.running = false) : Inv { s with poller := p.freeBuffer e.1 } := by
  have hplaces := IoUringPoller.places_takeReady htake
  obtain ⟨head, tail, rfl, hready⟩ := IoUringPoller.takeReady_cases htake
  have hfree : s.poller.free.length < MAX_BUFFERS := by
    have hlength := h.buffers.length_eq
    unfold BatchReceiver.buffers IoUringPoller.places at hlength
    rw [hready] at hlength
    simp only [List.length_append, List.length_range, List.length_map, List.length_cons] at hlength
    omega
  generalize hq : { s.poller with readyHead := head, readyLen := tail } = q at hplaces hready
  have hqfree : q.free.length < MAX_BUFFERS := by
    rw [← hq]
    exact hfree
  apply h.stopped
  . unfold BatchReceiver.buffers
    apply List.Perm.append_left
    exact (IoUringPoller.places_freeBuffer hqfree).trans hplaces.symm
  . have hsame : waiting { s with poller := q.freeBuffer e.1 } = waiting { s with poller := q } := by
      apply SameData.waiting_of_pc
      . exact sameData_freeBuffer q e.1
      . rfl
      . rfl
    rw [hsame]
    unfold waiting
    rw [hready, ← hq]
    apply List.Sublist.append_right
    apply List.Sublist.append_right
    apply List.Sublist.append_left
    exact List.sublist_cons_self _ _
  . rfl
  . rfl
  . exact hrunning

theorem Inv.call (h : Inv s) (hpc : s.pc = .idle) {len : Nat} (hclean : Clean s (.call len)) : Inv (s.call len) := by
  have hbuf : pcBuf s.pc = none := by
    rw [hpc]
    rfl
  unfold BatchReceiver.call
  split
  . next hstop =>
    exact ⟨h.buffers, h.small, h.in_order, h.once, h.zero, fun _ => Or.inl hstop⟩
  . next hstop =>
    split
    . next hzero =>
      have hrunning : s.running = false := by
        cases hzero with
        | inl hrunning => exact hrunning
        | inr hlen =>
          by_contra hrunning
          exact hclean (Bool.eq_false_of_not_eq_true hstop) (Bool.eq_true_of_not_eq_false hrunning) hlen
      apply h.ret_none hbuf
      . exact Int.le_refl 0
      . exact fun _ => hrunning
      . exact Or.inr hrunning
    . exact h.moved (moved_between hbuf rfl)

theorem Inv.reap (h : Inv s) {len added : Nat} {sawError : Bool} (hpc : s.pc = .reap len added sawError)
    (hclean : Clean s .run) : Inv (s.reap len added sawError) := by
  have hbuf : pcBuf s.pc = none := by
    rw [hpc]
    rfl
  unfold BatchReceiver.reap
  split
  . next hcq =>
    unfold Clean at hclean
    rw [hpc] at hclean
    split
    . next herror =>
      apply h.ret_none hbuf
      . split
        . decide
        . decide
      . split
        . intro hzero
          cases hzero
        . next hrunning => exact fun _ => Bool.eq_false_of_not_eq_true hrunning
      . exact hclean hcq herror
    . split
      . next hzero =>
        apply h.ret_none hbuf
        . exact Int.le_refl 0
        . exact fun _ => hzero.2
        . exact Or.inr hzero.2
      . exact h.moved (moved_between hbuf rfl)
  . next hcq => exact h.moved (moved_reap_timeout hpc hcq)
  . next hcq => exact h.moved (moved_reap_recv hpc hcq)

theorem Inv.run (h : Inv s) (hclean : Clean s .run) (hstep : s.run = some s') : Inv s' := by
  unfold BatchReceiver.run at hstep
  split at hstep
  . next len hpc =>
    cases hstep
    apply h.moved
    apply moved_between
    . rw [hpc]
      rfl
    . split
      . rfl
      . rfl
  . next hpc =>
    cases hstep
    exact h.reap hpc hclean
  . next hpc =>
    cases hstep
    exact h.moved (moved_seen h hpc)
  . next hpc =>
    cases hstep
    exact h.moved (moved_store h hpc)
  . next hpc =>
    split at hstep
    . cases hstep
    . next htake =>
      cases hstep
      exact h.moved (moved_take hpc htake)
  . next hpc =>
    cases hstep
    unfold Clean at hclean
    rw [hpc] at hclean
    exact h.moved (moved_taken h hpc hclean)
  . cases hstep

/-!
What the thread knows of its own last step: the ready queue is as it has seen it, while nobody else takes from it, and
what it has copied is as long as the kernel has said.
-/

def Local (s : BatchReceiver) : Prop :=
  match s.pc with
  | .take _ => s.running = true → s.poller.readyLen ≠ 0
  | .copied _ nbytes n _ => n = toSize nbytes
  | _ => True

theorem Local.stopped (h : Local s) (hpc : s'.pc = s.pc) (hrunning : s'.running = false) : Local s' := by
  unfold Local at h ⊢
  rw [hpc]
  split
  . intro hrun
    rw [hrunning] at hrun
    cases hrun
  . next hcopied =>
    rw [hcopied] at h
    exact h
  . trivial

theorem local_reap {len added : Nat} {sawError : Bool} (hpc : s.pc = .reap len added sawError)
    : Local (s.reap len added sawError) := by
  unfold reap
  split
  . split
    . trivial
    . split
      . trivial
      . trivial
  . unfold Local
    rw [hpc]
    trivial
  . trivial

theorem local_run (hclean : Clean s .run) (hstep : s.run = some s') : Local s' := by
  unfold run at hstep
  split at hstep
  . cases hstep
    rcases Nat.eq_zero_or_pos s.poller.readyLen with hzero | hpos
    . rw [if_pos hzero]
      trivial
    . have hne := Nat.ne_of_gt hpos
      rw [if_neg hne]
      exact fun _ => hne
  . next hpc =>
    cases hstep
    exact local_reap hpc
  . cases hstep
    unfold seen
    split
    . trivial
    . trivial
  . cases hstep
    unfold store
    split
    . trivial
    . trivial
  . split at hstep
    . cases hstep
    . cases hstep
      trivial
  . next hpc =>
    cases hstep
    unfold Clean at hclean
    rw [hpc] at hclean
    exact Nat.min_eq_left hclean
  . cases hstep

theorem local_step {l : Label} (h : Local s) (hclean : Clean s l) (hstep : step s l = some s') : Local s' := by
  unfold step at hstep
  cases l with
  | begin sqes n =>
    dsimp only at hstep
    split at hstep
    . cases hstep
      trivial
    . cases hstep
  | call len =>
    dsimp only at hstep
    split at hstep
    . split at hstep
      . cases hstep
      . cases hstep
        unfold call
        split
        . exact h
        . split
          . trivial
          . trivial
    . cases hstep
  | run => exact local_run hclean hstep
  | wait n =>
    dsimp only at hstep
    split at hstep
    . cases hstep
      trivial
    . cases hstep
  | resubmit sqe =>
    dsimp only at hstep
    split at hstep
    . cases hstep
      trivial
    . cases hstep
  | setStop =>
    cases hstep
    exact h
  | stop =>
    cases hstep
    unfold stop
    split
    . split
      . exact h.stopped rfl rfl
      . exact h.stopped rfl rfl
    . exact h
  | discard =>
    dsimp only at hstep
    split at hstep
    . cases hstep
    . next hrunning =>
      split at hstep
      . cases hstep
      . cases hstep
        exact h.stopped rfl (Bool.eq_false_of_not_eq_true hrunning)
  | complete b x =>
    dsimp only at hstep
    split at hstep
    . cases hstep
      exact h
    . cases hstep
  | fail b res =>
    dsimp only at hstep
    split at hstep
    . cases hstep
      exact h
    . cases hstep
  | timeout res =>
    cases hstep
    exact h
  | reuse res =>
    cases hstep
    exact h

theorem inv_step {l : Label} (h : Inv s) (hlocal : Local s) (hclean : Clean s l) (hstep : step s l = some s')
    : Inv s' := by
  unfold step at hstep
  cases l with
  | begin sqes n =>
    dsimp only at hstep
    split at hstep
    . next hpc =>
      cases hstep
      exact h.moved (moved_begin h hpc sqes n)
    . cases hstep
  | call len =>
    dsimp only at hstep
    split at hstep
    . next hpc =>
      split at hstep
      . cases hstep
      . cases hstep
        exact h.call hpc hclean
    . cases hstep
  | run => exact h.run hclean hstep
  | wait n =>
    dsimp only at hstep
    split at hstep
    . next hpc =>
      cases hstep
      exact h.moved (moved_wait hpc n)
    . cases hstep
  | resubmit sqe =>
    dsimp only at hstep
    split at hstep
    . next hpc =>
      cases hstep
      unfold Clean at hclean
      unfold Local at hlocal
      rw [hpc] at hclean hlocal
      apply h.resubmit hpc sqe
      rw [hlocal]
      exact hclean
    . cases hstep
  | setStop =>
    cases hstep
    exact h.setStop
  | stop =>
    cases hstep
    exact h.stop
  | discard =>
    dsimp only at hstep
    split at hstep
    . cases hstep
    . next hrunning =>
      split at hstep
      . cases hstep
      . next htake =>
        cases hstep
        exact h.discard htake (Bool.eq_false_of_not_eq_true hrunning)
  | complete b x =>
    dsimp only at hstep
    split at hstep
    . next hmay =>
      cases hstep
      exact h.complete hmay.1 hmay.2
    . cases hstep
  | fail b res =>
    dsimp only at hstep
    split at hstep
    . next hmay =>
      cases hstep
      exact h.moved (moved_fail hmay.1 hmay.2)
    . cases hstep
  | timeout res =>
    cases hstep
    exact h.moved (moved_timeout s res)
  | reuse res =>
    cases hstep
    exact h.moved (moved_reuse hclean)

theorem inv_start : Inv start where
  buffers := by decide
  small := by
    intro x hx
    cases hx
  in_order := fun _ => rfl
  once := List.Sublist.slnil
  zero := by
    intro r hr
    cases hr
  stays := by
    intro hleft
    cases hleft

end BatchReceiver

end NebulaXTrader
