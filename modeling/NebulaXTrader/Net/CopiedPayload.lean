import Mathlib.Data.List.Infix
import NebulaXTrader.Net.FrameReceiver

/-!
This module contains the theorem about what `recv` stores while the kernel writes: the payload of the frame as it was
received, if the kernel leaves the bytes alone that are still to be copied. A receiver that copies before it gives the
buffer back needs nothing of the kernel.
-/

namespace NebulaXTrader

namespace FrameReceiver

open FrameUtil (payloadAt)

variable {b : Backend} {s s' : FrameReceiver}

structure Owned (b : Backend) (kernel : Nat → Bool) (mem : Nat → UInt8) (d : Desc) : Prop where
  not_kernel : kernel (d.addr / b.bufSize) = false
  fits : Blocks.Fits b.bufSize d.addr d.len
  frame_eq : Cells.read mem d.addr d.len = d.frame

/--
No frame that waits is in the buffer of this one.
-/
def Apart (b : Backend) (rx : List Desc) (d : Desc) : Prop := ∀ d' ∈ rx, d'.addr / b.bufSize ≠ d.addr / b.bufSize

/--
What `recv` can rely on while it works on a frame, where `ops` is what it has still to do.
-/
structure Copying (b : Backend) (kernel : Nat → Bool) (mem : Nat → UInt8) (rx : List Desc) (len : Nat) (d : Desc)
    (payload : Option (Nat × Nat)) (out : List UInt8) (ops : List Op) : Prop where
  payload_eq : payload = b.payloadOf d.frame
  suffix : ops <:+ b.body
  fits : Blocks.Fits b.bufSize d.addr d.frame.length
  owned : .giveBack ∈ ops → kernel (d.addr / b.bufSize) = false ∧ Apart b rx d
  skipped : payload = none → .copy ∈ ops
  intact : ∀ p, payload = some p →
    Blocks.Intact mem (d.addr + p.1) (min p.2 len) ((payloadAt d.frame p).take len) out
  copied : ∀ p, payload = some p → .copy ∉ ops → min p.2 len ≤ out.length

def InHand (b : Backend) (s : FrameReceiver) : Prop :=
  match s.pc with
  | .idle => True
  | .fetch _ => True
  | .taken _ d => Owned b s.kernel s.mem d ∧ Apart b s.rx d
  | .body len d payload out ops => Copying b s.kernel s.mem s.rx len d payload out ops

structure Inv (b : Backend) (s : FrameReceiver) : Prop where
  waiting : ∀ d ∈ s.rx, Owned b s.kernel s.mem d
  apart : s.rx.Pairwise (fun d d' => d.addr / b.bufSize ≠ d'.addr / b.bufSize)
  inHand : InHand b s
  stored : ∀ r ∈ s.results, b.Stored r

def start (mem : Nat → UInt8) (kernel : Nat → Bool) : FrameReceiver := { mem := mem, kernel := kernel }

theorem inv_start (b : Backend) (mem : Nat → UInt8) (kernel : Nat → Bool) : Inv b (start mem kernel) where
  waiting := by simp [start]
  apart := List.Pairwise.nil
  inHand := trivial
  stored := by simp [start]

/-!
A write of the kernel is to a buffer of its own, so the frames of the receiver stay.
-/

section

variable {addr : Nat} {bytes : List UInt8}

theorem Owned.write {d : Desc} (h : Owned b s.kernel s.mem d) (hmay : KernelMay b s addr bytes)
    : Cells.read (Cells.write s.mem addr bytes) d.addr d.len = d.frame := by
  rw [Blocks.read_write_of_other_block s.mem hmay.2 h.fits]
  . exact h.frame_eq
  . intro heq
    have hkernel := hmay.1
    rw [← heq, h.not_kernel] at hkernel
    cases hkernel

theorem write_of_awaits
    (hundisturbed : ∀ i, ∀ h : i < bytes.length, AwaitsCopy s (addr + i) → bytes[i] = s.mem (addr + i)) {a : Nat}
    (ha : AwaitsCopy s a) : Cells.write s.mem addr bytes a = s.mem a := by
  rcases Nat.lt_or_ge a addr with hlt | hge
  . apply Cells.write_of_lt
    exact hlt
  . obtain ⟨i, rfl⟩ := Nat.exists_eq_add_of_le hge
    rcases Nat.lt_or_ge i bytes.length with hin | hout
    . rw [Cells.write_of_mem s.mem bytes hin]
      exact hundisturbed i hin ha
    . apply Cells.write_of_ge
      omega

theorem Inv.write (h : Inv b s) (hmay : KernelMay b s addr bytes)
    (hundisturbed : ∀ i, ∀ h : i < bytes.length, AwaitsCopy s (addr + i) → bytes[i] = s.mem (addr + i))
    : Inv b { s with mem := Cells.write s.mem addr bytes } where
  waiting := by
    intro d hd
    have howned := h.waiting d hd
    exact ⟨howned.not_kernel, howned.fits, howned.write hmay⟩
  apart := h.apart
  inHand := by
    have hand := h.inHand
    unfold InHand at hand ⊢
    dsimp only
    split
    . trivial
    . trivial
    . next hpc =>
      rw [hpc] at hand
      exact ⟨⟨hand.1.not_kernel, hand.1.fits, hand.1.write hmay⟩, hand.2⟩
    . next hpc =>
      rw [hpc] at hand
      refine ⟨hand.payload_eq, hand.suffix, hand.fits, hand.owned, hand.skipped, ?_, hand.copied⟩
      intro p hp
      apply (hand.intact p hp).congr
      intro a ha
      apply write_of_awaits hundisturbed
      unfold AwaitsCopy
      rw [hpc, hp]
      exact ha
  stored := h.stored

theorem Inv.enqueue (h : Inv b s) {d : Desc} (hkernel : s.kernel (d.addr / b.bufSize) = true)
    (hfits : Blocks.Fits b.bufSize d.addr d.len) (hframe : Cells.read s.mem d.addr d.len = d.frame)
    : Inv b { s with
        kernel := Function.update s.kernel (d.addr / b.bufSize) false
        rx := s.rx ++ [d] } := by
  -- a buffer of the receiver is another one than this one, which was the kernel's
  have hother : ∀ {d' : Desc}, s.kernel (d'.addr / b.bufSize) = false →
      d'.addr / b.bufSize ≠ d.addr / b.bufSize := by
    intro d' hnot heq
    rw [heq, hkernel] at hnot
    cases hnot
  have hkeeps : ∀ {d' : Desc}, s.kernel (d'.addr / b.bufSize) = false →
      Function.update s.kernel (d.addr / b.bufSize) false (d'.addr / b.bufSize) = false := by
    intro d' hnot
    rw [Function.update_of_ne (hother hnot)]
    exact hnot
  have hapart : ∀ {d' : Desc}, s.kernel (d'.addr / b.bufSize) = false → Apart b s.rx d' →
      ∀ d'' ∈ s.rx ++ [d], d''.addr / b.bufSize ≠ d'.addr / b.bufSize := by
    intro d' hnot hd' d'' hmem
    rcases List.mem_append.1 hmem with hold | hnew
    . exact hd' d'' hold
    . rw [List.mem_singleton.1 hnew]
      exact (hother hnot).symm
  constructor
  . intro d' hd'
    rcases List.mem_append.1 hd' with hold | hnew
    . have howned := h.waiting d' hold
      exact ⟨hkeeps howned.not_kernel, howned.fits, howned.frame_eq⟩
    . rw [List.mem_singleton.1 hnew]
      exact ⟨Function.update_self _ _ _, hfits, hframe⟩
  . rw [List.pairwise_append]
    refine ⟨h.apart, List.pairwise_singleton _ _, ?_⟩
    intro d' hd' d'' hd''
    rw [List.mem_singleton.1 hd'']
    exact hother (h.waiting d' hd').not_kernel
  . have hand := h.inHand
    unfold InHand at hand ⊢
    dsimp only
    split
    . trivial
    . trivial
    . next hpc =>
      rw [hpc] at hand
      refine ⟨⟨hkeeps hand.1.not_kernel, hand.1.fits, hand.1.frame_eq⟩, hapart hand.1.not_kernel hand.2⟩
    . next hpc =>
      rw [hpc] at hand
      refine ⟨hand.payload_eq, hand.suffix, hand.fits, ?_, hand.skipped, hand.intact, hand.copied⟩
      intro hmem
      have howned := hand.owned hmem
      exact ⟨hkeeps howned.1, hapart howned.1 howned.2⟩
  . exact h.stored

end

/-!
The steps of `recv`.
-/

theorem Inv.taken (h : Inv b s) {d : Desc} {rx : List Desc} (hrx : s.rx = d :: rx) (len : Nat)
    : Inv b { s with rx := rx, pc := .taken len d } := by
  have hwaiting := h.waiting
  have happart := h.apart
  rw [hrx] at hwaiting happart
  rw [List.pairwise_cons] at happart
  constructor
  . intro d' hd'
    exact hwaiting d' (List.mem_cons_of_mem _ hd')
  . exact happart.2
  . refine ⟨hwaiting d List.mem_cons_self, ?_⟩
    intro d' hd'
    exact (happart.1 d' hd').symm
  . exact h.stored

theorem Inv.extract (h : Inv b s) {len : Nat} {d : Desc} (hpc : s.pc = .taken len d)
    : Inv b { s with pc := .body len d (b.payloadOf (Cells.read s.mem d.addr d.len)) [] b.body } := by
  have hand := h.inHand
  unfold InHand at hand
  rw [hpc] at hand
  have howned := hand.1
  have hlen : d.len = d.frame.length := by
    rw [← howned.frame_eq, Cells.length_read]
  refine ⟨h.waiting, h.apart, ?_, h.stored⟩
  constructor
  . rw [howned.frame_eq]
  . exact List.suffix_refl b.body
  . rw [← hlen]
    exact howned.fits
  . intro _
    exact ⟨howned.not_kernel, hand.2⟩
  . intro _
    exact b.body_copies
  . intro p hp
    rw [howned.frame_eq] at hp
    have hin := b.payloadOf_inside d.frame p hp
    apply Blocks.intact_nil
    unfold payloadAt
    rw [List.take_take, Nat.min_comm, ← howned.frame_eq]
    symm
    apply Blocks.slice_read
    omega
  . intro _ _ hnot
    exact absurd b.body_copies hnot

section

variable {kernel kernel' : Nat → Bool} {mem : Nat → UInt8} {rx : List Desc} {len : Nat} {d : Desc}
  {payload : Option (Nat × Nat)} {out : List UInt8} {ops : List Op}

theorem Copying.skip {op : Op} (h : Copying b kernel mem rx len d payload out (op :: ops)) (hop : .copy ≠ op)
    (howned : .giveBack ∈ ops → kernel' (d.addr / b.bufSize) = false ∧ Apart b rx d)
    : Copying b kernel' mem rx len d payload out ops := by
  refine ⟨h.payload_eq, (List.suffix_cons op ops).trans h.suffix, h.fits, howned, ?_, h.intact, ?_⟩
  . intro hnone
    exact List.mem_of_ne_of_mem hop (h.skipped hnone)
  . intro p hp hnot
    apply h.copied p hp
    exact List.not_mem_cons_of_ne_of_not_mem hop hnot

theorem Copying.copied_all {p : Nat × Nat} (h : Copying b kernel mem rx len d (some p) out (.copy :: ops))
    (hge : min p.2 len ≤ out.length) : Copying b kernel mem rx len d (some p) out ops := by
  refine ⟨h.payload_eq, (List.suffix_cons _ ops).trans h.suffix, h.fits, ?_, ?_, h.intact, ?_⟩
  . intro hmem
    exact h.owned (List.mem_cons_of_mem _ hmem)
  . intro hnone
    cases hnone
  . intro q hq _
    cases hq
    exact hge

theorem Copying.copied_one {p : Nat × Nat} (h : Copying b kernel mem rx len d (some p) out (.copy :: ops))
    (hlt : out.length < min p.2 len)
    : Copying b kernel mem rx len d (some p) (out ++ [mem (d.addr + p.1 + out.length)]) (.copy :: ops) := by
  refine ⟨h.payload_eq, h.suffix, h.fits, h.owned, h.skipped, ?_, ?_⟩
  . intro q hq
    cases hq
    exact (h.intact p rfl).next hlt
  . intro _ _ hnot
    exact absurd List.mem_cons_self hnot

end

theorem Inv.body (h : Inv b s) {len : Nat} {d : Desc} {payload : Option (Nat × Nat)} {out : List UInt8}
    {ops : List Op} (hpc : s.pc = .body len d payload out ops) (given : Bool)
    : Inv b (s.body b given len d payload out ops) := by
  have hand := h.inHand
  unfold InHand at hand
  rw [hpc] at hand
  unfold FrameReceiver.body
  cases ops with
  | nil =>
    refine ⟨h.waiting, h.apart, trivial, ?_⟩
    intro r hr
    rcases List.mem_append.1 hr with hold | hnew
    . exact h.stored r hold
    . rw [List.mem_singleton.1 hnew]
      cases hpayload : payload with
      | none => cases hand.skipped hpayload
      | some p =>
        refine ⟨p, ?_, ?_⟩
        . rw [← hand.payload_eq, hpayload]
        . apply (hand.intact p hpayload).done
          exact hand.copied p hpayload List.not_mem_nil
  | cons op ops =>
    cases op with
    | giveBack =>
      have howned := hand.owned List.mem_cons_self
      -- the frames that wait are in other buffers, and the rest of the body does not give this one back again
      have hskip : ∀ {kernel : Nat → Bool}, Copying b kernel s.mem s.rx len d payload out ops := by
        intro kernel
        apply hand.skip (by decide)
        intro hmem
        have hnodup := b.body_nodup.sublist hand.suffix.sublist
        exact absurd hmem (List.nodup_cons.1 hnodup).1
      dsimp only
      refine ⟨?_, h.apart, hskip, h.stored⟩
      intro d' hd'
      have hwaiting := h.waiting d' hd'
      refine ⟨?_, hwaiting.fits, hwaiting.frame_eq⟩
      dsimp only
      split
      . rw [Function.update_of_ne (howned.2 d' hd')]
        exact hwaiting.not_kernel
      . exact hwaiting.not_kernel
    | release =>
      dsimp only
      refine ⟨h.waiting, h.apart, ?_, h.stored⟩
      apply hand.skip (by decide)
      intro hmem
      exact hand.owned (List.mem_cons_of_mem _ hmem)
    | copy =>
      cases payload with
      | none => exact ⟨h.waiting, h.apart, trivial, h.stored⟩
      | some p =>
        dsimp only
        split
        . next hlt => exact ⟨h.waiting, h.apart, hand.copied_one hlt, h.stored⟩
        . next hge => exact ⟨h.waiting, h.apart, hand.copied_all (Nat.not_lt.1 hge), h.stored⟩

theorem inv_step {l : Label} (h : Inv b s) (hundisturbed : Undisturbed s l) (hstep : step b s l = some s')
    : Inv b s' := by
  unfold step at hstep
  cases l with
  | recv len =>
    dsimp only at hstep
    split at hstep
    . cases hstep
      split
      . exact h
      . exact ⟨h.waiting, h.apart, trivial, h.stored⟩
    . cases hstep
  | run given =>
    dsimp only at hstep
    unfold FrameReceiver.run at hstep
    split at hstep
    . cases hstep
    . next len hpc =>
      split at hstep
      . cases hstep
        exact h
      . next hrx =>
        cases hstep
        exact h.taken hrx len
    . next hpc =>
      cases hstep
      exact h.extract hpc
    . next hpc =>
      cases hstep
      exact h.body hpc given
  | leave =>
    dsimp only at hstep
    split at hstep
    . cases hstep
      exact ⟨h.waiting, h.apart, trivial, h.stored⟩
    . cases hstep
  | deliver addr frame =>
    dsimp only at hstep
    split at hstep
    . next hmay =>
      cases hstep
      apply (h.write hmay hundisturbed).enqueue (d := ⟨addr, frame.length, frame⟩)
      . exact hmay.1
      . exact hmay.2
      . exact Blocks.read_write_self s.mem addr frame
    . cases hstep
  | overwrite addr bytes =>
    dsimp only at hstep
    split at hstep
    . next hmay =>
      cases hstep
      exact h.write hmay hundisturbed
    . cases hstep

/--
A receiver that has copied everything when it gives the buffer back.
-/
def CopiesFirst (b : Backend) : Prop := ∀ ops ∈ b.body.tails, .copy ∈ ops → .giveBack ∈ ops

theorem undisturbed_of_copiesFirst {l : Label} (hfirst : CopiesFirst b) (h : Inv b s)
    (hstep : step b s l = some s') : Undisturbed s l := by
  have howner : ∀ {a : Nat}, AwaitsCopy s a → s.kernel (a / b.bufSize) = false := by
    intro a ha
    have hand := h.inHand
    unfold AwaitsCopy at ha
    unfold InHand at hand
    split at ha
    . next len d p out ops hpc =>
      rw [hpc] at hand
      have hmem : .copy ∈ ops := by
        by_contra hnot
        have hcopied := hand.copied p rfl hnot
        unfold Blocks.Awaits at ha
        omega
      have hback := hfirst ops ((List.mem_tails _ _).2 hand.suffix) hmem
      have hin := b.payloadOf_inside d.frame p hand.payload_eq.symm
      have hblock : a / b.bufSize = d.addr / b.bufSize := by
        unfold Blocks.Awaits at ha
        have hadd : a = d.addr + (a - d.addr) := by omega
        rw [hadd]
        apply hand.fits.block_eq
        omega
      rw [hblock]
      exact (hand.owned hback).1
    . exact ha.elim
  have hwrite : ∀ {addr : Nat} {bytes : List UInt8}, KernelMay b s addr bytes →
      ∀ i, ∀ h : i < bytes.length, AwaitsCopy s (addr + i) → bytes[i] = s.mem (addr + i) := by
    intro addr bytes hmay i hi ha
    have hnot := howner ha
    rw [hmay.2.block_eq hi, hmay.1] at hnot
    cases hnot
  unfold step at hstep
  cases l with
  | recv len => trivial
  | run given => trivial
  | leave => trivial
  | deliver addr frame =>
    dsimp only at hstep
    split at hstep
    . next hmay => exact hwrite hmay
    . cases hstep
  | overwrite addr bytes =>
    dsimp only at hstep
    split at hstep
    . next hmay => exact hwrite hmay
    . cases hstep

theorem copiesFirst_recvBatch : CopiesFirst IoUringReceiver.recvBatch := by
  unfold CopiesFirst
  decide

/--
In every run in which the kernel leaves the bytes alone that are still to be copied, a call of `recv` stores the UDP
payload of the frame as it was received. A call of `recv_batch` stores it in every run.
-/
theorem stored_payload (port dataRoom : Nat) (mem : Nat → UInt8) (kernel : Nat → Bool) (ls : List Label)
    : (∀ b, b = AF_XDPReceiver.recv port ∨ b = DPDKReceiver.recv dataRoom port →
        Run.Along (step b) Undisturbed (start mem kernel) ls →
        ∀ s, Run.exec (step b) (start mem kernel) ls = some s → ∀ r ∈ s.results, b.Stored r) ∧
      ∀ s, Run.exec (step IoUringReceiver.recvBatch) (start mem kernel) ls = some s →
        ∀ r ∈ s.results, IoUringReceiver.recvBatch.Stored r := by
  constructor
  . intro b _ halong s hrun
    apply Inv.stored
    apply Run.exec_inv _ (inv_start b mem kernel) halong hrun
    intro s l s' hinv hgood hstep
    exact inv_step hinv hgood hstep
  . intro s hrun
    apply Inv.stored
    apply Run.exec_keeps _ (inv_start IoUringReceiver.recvBatch mem kernel) hrun
    intro s l s' hinv hstep
    exact inv_step hinv (undisturbed_of_copiesFirst copiesFirst_recvBatch hinv hstep) hstep

def sevens : List UInt8 := FrameUtil.shortest.frame (List.replicate 20 7)

def eights : List UInt8 := FrameUtil.shortest.frame (List.replicate 20 8)

/--
While the first frame is copied the kernel, which has its buffer back, writes the second one into another.
-/
def undisturbed : List Label :=
  [.deliver 0 sevens, .recv 20] ++ List.replicate 4 (.run true) ++ [.deliver 4096 eights] ++
    List.replicate 22 (.run true)

theorem exec_undisturbed
    : (Run.exec (step (AF_XDPReceiver.recv 12345)) (start (fun _ => 0) (fun _ => true)) undisturbed).map
        FrameReceiver.results = some [⟨sevens, 20, List.replicate 20 7⟩] := by
  decide +kernel

theorem along_undisturbed
    : Run.Along (step (AF_XDPReceiver.recv 12345)) Undisturbed (start (fun _ => 0) (fun _ => true)) undisturbed := by
  decide +kernel

theorem stored_payload_undisturbed : (AF_XDPReceiver.recv 12345).Stored ⟨sevens, 20, List.replicate 20 7⟩ := by
  obtain ⟨s, hs, hresults⟩ := Option.map_eq_some_iff.1 exec_undisturbed
  apply (stored_payload 12345 2176 (fun _ => 0) (fun _ => true) undisturbed).1 _ (Or.inl rfl) along_undisturbed s hs
  rw [hresults]
  exact List.mem_singleton_self _

def reuse (n : Nat) : List Label :=
  [.deliver 0 sevens, .recv 20] ++ List.replicate n (.run true) ++ [.deliver 0 eights] ++
    List.replicate 22 (.run true)

theorem exec_reuse_afXdp
    : (Run.exec (step (AF_XDPReceiver.recv 12345)) (start (fun _ => 0) (fun _ => true)) (reuse 4)).map
        FrameReceiver.results = some [⟨sevens, 20, List.replicate 20 8⟩] := by
  decide

theorem exec_reuse_dpdk
    : (Run.exec (step (DPDKReceiver.recv 2176 12345)) (start (fun _ => 0) (fun _ => true)) (reuse 3)).map
        FrameReceiver.results = some [⟨sevens, 20, List.replicate 20 8⟩] := by
  decide

theorem not_stored {b : Backend} (hpayload : b.payloadOf sevens = some (42, 20))
    : ¬b.Stored ⟨sevens, 20, List.replicate 20 8⟩ := by
  rintro ⟨p, hp, hstored⟩
  dsimp only at hp hstored
  rw [hpayload] at hp
  cases hp
  revert hstored
  decide

/--
Both receivers hand out the bytes of the second frame for the first one.
-/
theorem not_stored_payload
    : (¬∀ ls s, Run.exec (step (AF_XDPReceiver.recv 12345)) (start (fun _ => 0) (fun _ => true)) ls = some s →
        ∀ r ∈ s.results, (AF_XDPReceiver.recv 12345).Stored r) ∧
      ¬∀ ls s, Run.exec (step (DPDKReceiver.recv 2176 12345)) (start (fun _ => 0) (fun _ => true)) ls = some s →
        ∀ r ∈ s.results, (DPDKReceiver.recv 2176 12345).Stored r := by
  have hpayload : udpPayload 12345 sevens = some (42, 20) := by decide
  constructor
  . intro h
    obtain ⟨s, hs, hresults⟩ := Option.map_eq_some_iff.1 exec_reuse_afXdp
    apply not_stored (b := AF_XDPReceiver.recv 12345) hpayload
    apply h (reuse 4) s hs
    rw [hresults]
    exact List.mem_singleton_self _
  . intro h
    obtain ⟨s, hs, hresults⟩ := Option.map_eq_some_iff.1 exec_reuse_dpdk
    apply not_stored (b := DPDKReceiver.recv 2176 12345) hpayload
    apply h (reuse 3) s hs
    rw [hresults]
    exact List.mem_singleton_self _

end FrameReceiver

end NebulaXTrader
