import NebulaXTrader.Lib.CircularQueue

/-!
This module contains the model of the batch path of `IoUringPoller`: the fixed buffers, the two rings that it shares
with the kernel and the queue of the buffers whose data waits.
-/

namespace NebulaXTrader

namespace IoUringPoller

def MAX_BUFFERS : Nat := 64

def BUF_SIZE : Nat := 8192

/--
A completion. The user data of a recv is its buffer, the one of a timeout `k_timeout_token`.
-/
inductive Cqe where
  | timeout (res : Int)
  | recv (b : Nat) (res : Int)
  deriving DecidableEq, Repr

end IoUringPoller

open IoUringPoller in
/--
`free` is the stack of the free buffers, its top first. `sq` are the prepared entries, `inflight` the ones that the
kernel has. `ready` are `ready_` and `ready_res_`.
-/
structure IoUringPoller where
  bufs : Nat → List UInt8 := fun _ => List.replicate BUF_SIZE 0
  free : List Nat := List.range MAX_BUFFERS
  sq : List Nat := []
  inflight : List Nat := []
  cq : List Cqe := []
  ready : Nat → Nat × Int := fun _ => (0, 0)
  readyHead : Nat := 0
  readyLen : Nat := 0

namespace IoUringPoller

variable (p : IoUringPoller)

def allocBuffer : Option (Nat × IoUringPoller) :=
  match p.free with
  | [] => none
  | b :: free => some (b, { p with free := free })

def freeBuffer (b : Nat) : IoUringPoller :=
  if p.free.length < MAX_BUFFERS then { p with free := b :: p.free } else p

/--
`sqe` says if the ring has an entry.
-/
def fillRecvSqe (b : Nat) (sqe : Bool) : Option IoUringPoller :=
  if sqe then some { p with sq := p.sq ++ [b] } else none

/--
The loop of `submit_inflight`, while the ring has `sqes` entries.
-/
def submitInflight (p : IoUringPoller) (count sqes : Nat) : IoUringPoller :=
  match count with
  | 0 => p
  | count + 1 =>
    match p.allocBuffer with
    | none => p
    | some (b, p') =>
      match p'.fillRecvSqe b (decide (0 < sqes)) with
      | none => p'.freeBuffer b
      | some p'' => p''.submitInflight count (sqes - 1)

def submit (n : Nat) : IoUringPoller :=
  { p with sq := p.sq.drop n, inflight := p.inflight ++ p.sq.take n }

def pushReady (b : Nat) (res : Int) : IoUringPoller :=
  { p with
    ready := Function.update p.ready ((p.readyHead + p.readyLen) % 2 ^ 32 % MAX_BUFFERS) (b, res)
    readyLen := p.readyLen + 1 }

def takeReady : Option ((Nat × Int) × IoUringPoller) :=
  if p.readyLen = 0 then
    none
  else
    some (p.ready (p.readyHead % MAX_BUFFERS),
      { p with readyHead := (p.readyHead + 1) % 2 ^ 32, readyLen := p.readyLen - 1 })

def resubmitRecv (b : Nat) (sqe : Bool) : IoUringPoller := (p.fillRecvSqe b sqe).getD (p.freeBuffer b)

def complete (b : Nat) (x : List UInt8) : IoUringPoller :=
  { p with
    bufs := Function.update p.bufs b (x ++ (p.bufs b).drop x.length)
    inflight := p.inflight.erase b
    cq := p.cq ++ [.recv b x.length] }

def fail (b : Nat) (res : Int) : IoUringPoller :=
  { p with inflight := p.inflight.erase b, cq := p.cq ++ [.recv b res] }

def timeout (res : Int) : IoUringPoller := { p with cq := p.cq ++ [.timeout res] }

/--
The buffers in the ready queue with the results of their recvs, in the order in which they became ready.
-/
def readyItems : List (Nat × Int) := CircularQueue.items p.ready MAX_BUFFERS p.readyHead p.readyLen

def Cqe.buf (e : Cqe) : Option Nat :=
  match e with
  | .timeout _ => none
  | .recv b _ => some b

/--
Where the buffers are that nobody has taken out.
-/
def places : List Nat :=
  p.free ++ p.sq ++ p.inflight ++ p.cq.filterMap Cqe.buf ++ p.readyItems.map Prod.fst

/-!
What the operations do to the places of the buffers. A buffer only goes from one to the next.
-/

section

variable {p} {p' : IoUringPoller} {b : Nat}

theorem readyItems_pushReady (res : Int) (h : p.readyLen < MAX_BUFFERS)
    : (p.pushReady b res).readyItems = p.readyItems ++ [(b, res)] := by
  have hmod : (p.readyHead + p.readyLen) % 2 ^ 32 % MAX_BUFFERS = (p.readyHead + p.readyLen) % MAX_BUFFERS :=
    Nat.mod_mod_of_dvd _ (by decide)
  unfold readyItems pushReady
  dsimp only
  rw [hmod]
  exact CircularQueue.items_push _ h

theorem takeReady_cases {e : Nat × Int} (h : p.takeReady = some (e, p'))
    : ∃ head len, p' = { p with readyHead := head, readyLen := len } ∧ p.readyItems = e :: p'.readyItems := by
  unfold takeReady at h
  split at h
  . cases h
  . next hlen =>
    cases h
    refine ⟨_, _, rfl, ?_⟩
    have hsucc : p.readyLen = p.readyLen - 1 + 1 := by omega
    unfold readyItems
    dsimp only
    rw [CircularQueue.items_mod (by decide), hsucc]
    exact CircularQueue.items_pop _ _ _ _

theorem places_freeBuffer (h : p.free.length < MAX_BUFFERS) : (p.freeBuffer b).places.Perm (b :: p.places) := by
  unfold freeBuffer
  rw [if_pos h]
  exact List.Perm.refl _

theorem places_fillRecvSqe {sqe : Bool} (h : p.fillRecvSqe b sqe = some p') : p'.places.Perm (b :: p.places) := by
  unfold fillRecvSqe at h
  split at h
  . cases h
    rw [List.perm_iff_count]
    intro a
    unfold places readyItems
    simp only [List.count_append, List.count_cons, List.count_nil]
    omega
  . cases h

theorem places_allocBuffer (h : p.allocBuffer = some (b, p')) : p.places.Perm (b :: p'.places) := by
  unfold allocBuffer at h
  split at h
  . cases h
  . next hfree =>
    cases h
    unfold places readyItems
    rw [hfree]
    exact List.Perm.refl _

theorem freeBuffer_allocBuffer (h : p.allocBuffer = some (b, p')) (hfree : p.free.length ≤ MAX_BUFFERS)
    : p'.freeBuffer b = p := by
  unfold allocBuffer at h
  split at h
  . cases h
  . next free hp =>
    cases h
    rw [hp, List.length_cons] at hfree
    unfold freeBuffer
    rw [if_pos (show free.length < MAX_BUFFERS from hfree)]
    dsimp only
    rw [← hp]

theorem places_submitInflight {count sqes : Nat} (hfree : p.free.length ≤ MAX_BUFFERS)
    : (p.submitInflight count sqes).places.Perm p.places := by
  induction count generalizing p sqes with
  | zero => exact List.Perm.refl _
  | succ count ih =>
    unfold submitInflight
    split
    . exact List.Perm.refl _
    . next b p' halloc =>
      split
      . rw [freeBuffer_allocBuffer halloc hfree]
      . next p'' hfill =>
        have hlen : p''.free.length ≤ MAX_BUFFERS := by
          unfold allocBuffer at halloc
          unfold fillRecvSqe at hfill
          split at halloc
          . cases halloc
          . next hp =>
            cases halloc
            rw [hp, List.length_cons] at hfree
            split at hfill
            . cases hfill
              exact Nat.le_of_succ_le hfree
            . cases hfill
        apply (ih hlen).trans
        apply (places_fillRecvSqe hfill).trans
        exact (places_allocBuffer halloc).symm

theorem places_submit (n : Nat) : (p.submit n).places.Perm p.places := by
  rw [List.perm_iff_count]
  intro a
  have hsplit : List.count a (p.sq.take n) + List.count a (p.sq.drop n) = List.count a p.sq := by
    rw [← List.count_append, List.take_append_drop]
  unfold places readyItems submit
  simp only [List.count_append]
  omega

theorem places_pushReady (res : Int) (h : p.readyLen < MAX_BUFFERS)
    : (p.pushReady b res).places.Perm (b :: p.places) := by
  have hready := readyItems_pushReady (b := b) res h
  rw [List.perm_iff_count]
  intro a
  unfold places
  rw [hready]
  unfold pushReady
  simp only [List.map_append, List.map_singleton, List.count_append, List.count_cons, List.count_nil]
  omega

theorem places_takeReady {e : Nat × Int} (h : p.takeReady = some (e, p')) : p.places.Perm (e.1 :: p'.places) := by
  obtain ⟨head, len, rfl, hready⟩ := takeReady_cases h
  rw [List.perm_iff_count]
  intro a
  unfold places
  rw [hready]
  simp only [List.map_cons, List.count_append, List.count_cons]
  omega

theorem places_resubmitRecv (sqe : Bool) (h : p.free.length < MAX_BUFFERS)
    : (p.resubmitRecv b sqe).places.Perm (b :: p.places) := by
  unfold resubmitRecv
  cases hfill : p.fillRecvSqe b sqe with
  | none => exact places_freeBuffer h
  | some p' => exact places_fillRecvSqe hfill

theorem places_seen {res : Int} {cq : List Cqe} (h : p.cq = .recv b res :: cq)
    : p.places.Perm (b :: places { p with cq := cq }) := by
  have hbuf : p.cq.filterMap Cqe.buf = b :: cq.filterMap Cqe.buf := by
    rw [h]
    rfl
  rw [List.perm_iff_count]
  intro a
  unfold places readyItems
  rw [hbuf]
  simp only [List.count_append, List.count_cons]
  omega

theorem places_completed (bufs : Nat → List UInt8) (res : Int) (hmem : b ∈ p.inflight)
    : (places { p with bufs := bufs, inflight := p.inflight.erase b, cq := p.cq ++ [Cqe.recv b res] }).Perm
        p.places := by
  have hin := List.count_pos_iff.2 hmem
  rw [List.perm_iff_count]
  intro a
  unfold places readyItems
  simp only [List.filterMap_append, List.count_append, List.count_erase]
  show _ + (_ + List.count a [b]) + _ = _
  rw [List.count_singleton]
  split
  . next heq =>
    rw [eq_of_beq heq] at hin
    omega
  . omega

end

end IoUringPoller

end NebulaXTrader
