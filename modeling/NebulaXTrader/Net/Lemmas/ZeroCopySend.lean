import NebulaXTrader.Net.ZeroCopySend

/-!
This module contains what holds of the ring, the submissions and the bytes that the kernel has taken while a send goes
on, and that each step keeps it.
-/

namespace NebulaXTrader

namespace ZeroCopySend

open SPSCByteRing
open IoUringSender (Joins)

/--
The kernel has not taken all the rest of the message with the last submission.
-/
def Unfinished (s : ZeroCopySend) (remaining : Nat) : Prop :=
  match s.answers (s.prepared - 1) with
  | some res => res < remaining
  | none => True

/--
A message is stored in an empty ring and not moved to the next lap; the wait takes the result of the last submission; a
call does not give up when the kernel has taken the rest of its message, and the kernel takes nothing for a call that
has given up.
-/
def Careful (s : ZeroCopySend) (l : Label) : Prop :=
  match l with
  | .run =>
    match s.pc with
    | .push c =>
      (s.ring.push (s.messages c)).isSome →
        s.ring.isEmpty ∧ Joins s.ring.capacity s.ring.tail (s.messages c) ∧ (s.messages c).length ≤ s.ring.capacity
    | .wait .. =>
      match s.cq with
      | [] => True
      | .result i _ :: _ => i + 1 = s.prepared
      | .notification _ :: _ => False
    | _ => True
  | .submitError _ | .waitError _ =>
    match s.pc with
    | .submit _ remaining | .wait _ remaining => s.Unfinished remaining
    | _ => True
  | .timeout =>
    match s.pc with
    | .wait _ remaining => s.running = false → s.Unfinished remaining
    | _ => True
  | .accepts i res => 0 < res → s.returned (s.submissions i).call = none
  | _ => True

instance (s : ZeroCopySend) (remaining : Nat) : Decidable (s.Unfinished remaining) :=
  match h : s.answers (s.prepared - 1) with
  | some res => decidable_of_iff (res < remaining) (by simp [Unfinished, h])
  | none => isTrue (by simp [Unfinished, h])

instance (s : ZeroCopySend) (l : Label) : Decidable (s.Careful l) := by
  unfold Careful
  repeat' split
  all_goals infer_instance

variable {k : Nat} {s : ZeroCopySend} {c : Nat}

structure Current (s : ZeroCopySend) (c : Nat) : Prop where
  last : c + 1 = s.calls
  unreturned : s.returned c = none
  others : ∀ c', c' < c → s.returned c' ≠ none

/--
Of the message of call `c` the kernel has taken the first `n` bytes.
-/
def Taken (s : ZeroCopySend) (c n : Nat) : Prop := ∀ j, some (c, j) ∈ s.accepted ↔ j < n

def got (s : ZeroCopySend) (i : Nat) : Nat :=
  match s.answers i with
  | some res => res.toNat
  | none => 0

/--
The ring holds the message of call `c` from position `p` on and nothing else, `sent` bytes of it are released.
-/
structure Stored (k : Nat) (s : ZeroCopySend) (c p sent remaining : Nat) : Prop where
  len : sent + remaining = (s.messages c).length
  fits : (s.messages c).length ≤ 2 ^ k
  head : s.ring.head = (p + sent) % 2 ^ 64
  tail : s.ring.tail = (p + (s.messages c).length) % 2 ^ 64
  origin : ∀ j, j < (s.messages c).length → s.origin ((p + j) % 2 ^ k) = some (c, j)

/--
Submission `i` is the last one and asks for bytes that follow those that are released. All others of the call are
answered.
-/
structure Asks (k : Nat) (s : ZeroCopySend) (c p sent remaining i : Nat) : Prop where
  last : i + 1 = s.prepared
  call : (s.submissions i).call = c
  ptr : (s.submissions i).ptr = (p + sent) % 2 ^ k
  le : (s.submissions i).len ≤ remaining
  contiguous : (p + sent) % 2 ^ k + (s.submissions i).len ≤ 2 ^ k
  bounded : s.got i ≤ (s.submissions i).len
  taken : s.Taken c (sent + s.got i)
  answered : ∀ i', i' < i → (s.submissions i').call = c → s.answers i' ≠ none

def Stage (k : Nat) (s : ZeroCopySend) (pc : SendPc) : Prop :=
  match pc with
  | .idle => ∀ c, c < s.calls → s.returned c ≠ none
  | .push c =>
    s.Current c ∧ 0 < (s.messages c).length ∧ s.Taken c 0 ∧ ∀ i, i < s.prepared → (s.submissions i).call ≠ c
  | .loop c remaining =>
    s.Current c ∧ ∃ p sent, Stored k s c p sent remaining ∧ s.Taken c sent ∧
      ∀ i, i < s.prepared → (s.submissions i).call = c → s.answers i ≠ none
  | .submit c remaining | .wait c remaining =>
    s.Current c ∧ ∃ p sent i, Stored k s c p sent remaining ∧ 0 < remaining ∧ Asks k s c p sent remaining i

structure Base (k : Nat) (s : ZeroCopySend) : Prop where
  capacity : s.ring.capacity = 2 ^ k
  tail : s.ring.tail < 2 ^ 64
  submitted : s.submitted ≤ s.prepared
  unasked : ∀ i, s.prepared ≤ i → s.answers i = none
  calls : ∀ i, i < s.prepared → (s.submissions i).call < s.calls
  cq : ∀ i res, .result i res ∈ s.cq → s.answers i = some res
  fresh : ∀ c, s.calls ≤ c → s.returned c = none ∧ s.Taken c 0
  truthful : s.Truthful

structure Inv (k : Nat) (s : ZeroCopySend) : Prop where
  base : Base k s
  stage : Stage k s s.pc

variable {s' : ZeroCopySend} {p sent remaining i : Nat}

theorem Current.frame (h : s.Current c) (hcalls : s'.calls = s.calls) (hreturned : s'.returned = s.returned)
    : s'.Current c := by
  refine ⟨?_, ?_, ?_⟩
  . rw [hcalls]
    exact h.last
  . rw [hreturned]
    exact h.unreturned
  . rw [hreturned]
    exact h.others

theorem Stored.frame (h : Stored k s c p sent remaining) (hmessages : s'.messages = s.messages)
    (hring : s'.ring = s.ring) (horigin : s'.origin = s.origin) : Stored k s' c p sent remaining := by
  refine ⟨?_, ?_, ?_, ?_, ?_⟩
  . rw [hmessages]
    exact h.len
  . rw [hmessages]
    exact h.fits
  . rw [hring]
    exact h.head
  . rw [hring, hmessages]
    exact h.tail
  . rw [hmessages, horigin]
    exact h.origin

/--
A step that touches nothing that the invariant of the call speaks about.
-/
structure Same (s s' : ZeroCopySend) : Prop where
  calls : s'.calls = s.calls
  messages : s'.messages = s.messages
  returned : s'.returned = s.returned
  ring : s'.ring = s.ring
  origin : s'.origin = s.origin
  prepared : s'.prepared = s.prepared
  submissions : s'.submissions = s.submissions
  answers : s'.answers = s.answers
  accepted : s'.accepted = s.accepted

theorem Taken.frame {n : Nat} (h : s.Taken c n) (haccepted : s'.accepted = s.accepted) : s'.Taken c n := by
  unfold Taken
  rw [haccepted]
  exact h

theorem got_frame (hanswers : s'.answers = s.answers) (i : Nat) : s'.got i = s.got i := by
  unfold got
  rw [hanswers]

theorem got_of_none (hnone : s.answers i = none) : s.got i = 0 := by
  unfold got
  rw [hnone]

theorem Asks.frame (h : Asks k s c p sent remaining i) (hs : Same s s') : Asks k s' c p sent remaining i := by
  have hgot := got_frame hs.answers i
  refine ⟨?_, ?_, ?_, ?_, ?_, ?_, ?_, ?_⟩
  . rw [hs.prepared]
    exact h.last
  . rw [hs.submissions]
    exact h.call
  . rw [hs.submissions]
    exact h.ptr
  . rw [hs.submissions]
    exact h.le
  . rw [hs.submissions]
    exact h.contiguous
  . rw [hs.submissions, hgot]
    exact h.bounded
  . rw [hgot]
    exact h.taken.frame hs.accepted
  . rw [hs.submissions, hs.answers]
    exact h.answered

theorem Stage.frame {pc : SendPc} (h : Stage k s pc) (hs : Same s s') : Stage k s' pc := by
  cases pc with
  | idle =>
    unfold Stage
    rw [hs.calls, hs.returned]
    exact h
  | push c =>
    obtain ⟨hcur, hne, htaken, hother⟩ := h
    refine ⟨hcur.frame hs.calls hs.returned, ?_, htaken.frame hs.accepted, ?_⟩
    . rw [hs.messages]
      exact hne
    . rw [hs.prepared, hs.submissions]
      exact hother
  | loop c remaining =>
    obtain ⟨hcur, p, sent, hstored, htaken, hans⟩ := h
    refine ⟨hcur.frame hs.calls hs.returned, p, sent, hstored.frame hs.messages hs.ring hs.origin,
      htaken.frame hs.accepted, ?_⟩
    rw [hs.prepared, hs.submissions, hs.answers]
    exact hans
  | submit c remaining | wait c remaining =>
    obtain ⟨hcur, p, sent, i, hstored, hpos, hasks⟩ := h
    exact ⟨hcur.frame hs.calls hs.returned, p, sent, i, hstored.frame hs.messages hs.ring hs.origin, hpos,
      hasks.frame hs⟩

theorem Taken.accepted_iff {n : Nat} (h : s.Taken c n) : s.Accepted c ↔ (s.messages c).length ≤ n := by
  constructor
  . intro hall
    by_contra hlt
    have hmem := (h n).1 (hall n (by omega))
    omega
  . intro hle j hj
    exact (h j).2 (by omega)

theorem Base.ret {r : Int} (h : Base k s) (hcur : s.Current c) (hr : r = (s.messages c).length ↔ s.Accepted c)
    : Inv k (s.ret c r) := by
  refine ⟨⟨h.capacity, h.tail, h.submitted, h.unasked, h.calls, h.cq, ?_, ?_⟩, ?_⟩
  . intro c' hc'
    have hlast := hcur.last
    have hc' : s.calls ≤ c' := hc'
    refine ⟨?_, (h.fresh c' hc').2⟩
    show Function.update s.returned c (some r) c' = none
    rw [Function.update_of_ne (by omega)]
    exact (h.fresh c' hc').1
  . intro c' r' hret
    have hret : Function.update s.returned c (some r) c' = some r' := hret
    by_cases heq : c' = c
    . rw [heq] at hret ⊢
      rw [Function.update_self] at hret
      cases hret
      exact hr
    . rw [Function.update_of_ne heq] at hret
      exact h.truthful c' r' hret
  . intro c' hc'
    have hlast := hcur.last
    have hc' : c' < s.calls := hc'
    show Function.update s.returned c (some r) c' ≠ none
    by_cases heq : c' = c
    . rw [heq, Function.update_self]
      simp
    . rw [Function.update_of_ne heq]
      exact hcur.others c' (by omega)

theorem Base.giveUp {r : Int} {n : Nat} (h : Base k s) (hcur : s.Current c) (htaken : s.Taken c n)
    (hn : n < (s.messages c).length) (hr : r ≤ 0) : Inv k (s.ret c r) := by
  apply h.ret hcur
  rw [htaken.accepted_iff]
  constructor
  . intro heq
    omega
  . intro hle
    omega

theorem called_messages (s : ZeroCopySend) (m : List UInt8) : (s.called m).messages s.calls = m :=
  Function.update_self _ _ _

theorem Base.called (h : Base k s) (m : List UInt8) : Base k (s.called m) := by
  refine ⟨h.capacity, h.tail, h.submitted, h.unasked, ?_, h.cq, ?_, ?_⟩
  . intro i hi
    exact Nat.lt_succ_of_lt (h.calls i hi)
  . intro c hc
    exact h.fresh c (Nat.le_of_succ_le hc)
  . intro c r hret
    have hret : s.returned c = some r := hret
    have hne : c ≠ s.calls := by
      intro heq
      rw [heq, (h.fresh s.calls (Nat.le_refl _)).1] at hret
      cases hret
    have hm : (s.called m).messages c = s.messages c := Function.update_of_ne hne _ _
    unfold Accepted
    rw [hm]
    exact h.truthful c r hret

theorem Inv.send {m : List UInt8} (h : Inv k s) (hstep : s.send m = some s') : Inv k s' := by
  unfold ZeroCopySend.send at hstep
  split at hstep
  . next hpc =>
    have hidle := h.stage
    rw [hpc] at hidle
    obtain ⟨hnone, htaken⟩ := h.base.fresh s.calls (Nat.le_refl _)
    have hbase := h.base.called m
    have hcur : (s.called m).Current s.calls := ⟨rfl, hnone, hidle⟩
    have htaken : (s.called m).Taken s.calls 0 := htaken
    split at hstep
    . cases hstep
      apply hbase.ret hcur
      rw [htaken.accepted_iff, called_messages]
      constructor
      . intro hzero
        omega
      . intro hle
        omega
    . next hgo =>
      cases hstep
      rw [not_or] at hgo
      refine ⟨⟨hbase.capacity, hbase.tail, hbase.submitted, hbase.unasked, hbase.calls, hbase.cq, hbase.fresh,
        hbase.truthful⟩, ⟨hcur.frame rfl rfl, ?_, htaken, ?_⟩⟩
      . show 0 < ((s.called m).messages s.calls).length
        rw [called_messages]
        omega
      . intro i hi
        exact Nat.ne_of_lt (h.base.calls i hi)
  . cases hstep

theorem push_eq_some {r ring : SPSCByteRing} {m : List UInt8} (h : r.push m = some ring)
    : ∃ pl, plan r.capacity r.head r.tail m = some pl ∧
        ring = { r with buf := Cells.writeAll r.buf pl.copies, tail := pl.tail } := by
  unfold SPSCByteRing.push at h
  split at h
  . cases h
  . next pl hplan => exact ⟨pl, hplan, (Option.some.inj h).symm⟩

theorem tags_eq {r : SPSCByteRing} {m : List UInt8} {pl : Plan} (h : plan r.capacity r.head r.tail m = some pl)
    : tags r c m = Cells.number (fun j => some (c, j)) 0 pl.copies := by
  unfold tags
  rw [h]

theorem stored_of_push (hk : k < 64) (h : Base k s) {ring : SPSCByteRing} (hne : 0 < (s.messages c).length)
    (hpush : s.ring.push (s.messages c) = some ring) (hempty : s.ring.isEmpty)
    (hjoins : Joins s.ring.capacity s.ring.tail (s.messages c)) (hlen : (s.messages c).length ≤ s.ring.capacity)
    : ring.capacity = 2 ^ k ∧ ring.tail < 2 ^ 64 ∧
        Stored k { s with ring := ring, origin := Cells.writeAll s.origin (tags s.ring c (s.messages c)) } c
          s.ring.tail 0 (s.messages c).length := by
  have hcap := h.capacity
  have htail : s.ring.tail % 2 ^ 64 = s.ring.tail := Nat.mod_eq_of_lt h.tail
  have hhead : s.ring.head = s.ring.tail := hempty
  rw [hcap] at hjoins hlen
  obtain ⟨pl, hplan, hring⟩ := push_eq_some hpush
  rw [tags_eq hplan]
  rw [hcap, hhead, ← htail] at hplan
  obtain ⟨hend, hplaced, hcontent⟩ := IoUringSender.plan_of_joins hk (by omega) hlen hjoins hplan
  subst hring
  refine ⟨hcap, ?_, ?_⟩
  . dsimp only
    rw [hend]
    exact Nat.mod_lt _ (Nat.two_pow_pos 64)
  . refine ⟨Nat.zero_add _, hlen, ?_, hend, ?_⟩
    . show s.ring.head = _
      rw [hhead, Nat.add_zero, htail]
    . intro j hj
      have hnumber := Cells.content_number (fun j => some (c, j)) 0 pl.copies
      have hself := (hplaced.number (fun j => some (c, j)) 0).self s.origin (by simp [hnumber, hcontent, hlen])
      rw [hnumber, hcontent] at hself
      have hat := congrArg (fun l => l[j]?) hself
      simpa [Cells.stream, hj] using hat

theorem Inv.push (hk : k < 64) (h : Inv k s) (hpc : s.pc = .push c) (hcareful : s.Careful .run)
    : Inv k (s.push c) := by
  have hb := h.base
  obtain ⟨hcur, hne, htaken, hother⟩ : Stage k s (.push c) := hpc ▸ h.stage
  unfold Careful at hcareful
  dsimp only at hcareful
  rw [hpc] at hcareful
  unfold ZeroCopySend.push
  dsimp only
  split
  . next ring hpush =>
    obtain ⟨hempty, hjoins, hlen⟩ := hcareful (by rw [hpush]; rfl)
    obtain ⟨hcapacity, htail, hstored⟩ := stored_of_push hk hb hne hpush hempty hjoins hlen
    refine ⟨⟨hcapacity, htail, hb.submitted, hb.unasked, hb.calls, hb.cq, hb.fresh, hb.truthful⟩, hcur.frame rfl rfl,
      s.ring.tail, 0, hstored.frame rfl rfl rfl, htaken, ?_⟩
    intro i hi hcall
    exact absurd hcall (hother i hi)
  . split
    . exact h
    . exact hb.giveUp hcur htaken hne (Int.le_refl 0)

theorem Base.errno (h : Base k s) (err : Int) : Base k { s with errno := err } :=
  ⟨h.capacity, h.tail, h.submitted, h.unasked, h.calls, h.cq, h.fresh, h.truthful⟩

theorem Asks.prepare (h : Base k s) (htaken : s.Taken c sent)
    (hans : ∀ i, i < s.prepared → (s.submissions i).call = c → s.answers i ≠ none) {n : Nat} (hle : n ≤ remaining)
    (hfits : (p + sent) % 2 ^ k + n ≤ 2 ^ k) (pc : SendPc)
    : Asks k { s with
        submissions := Function.update s.submissions s.prepared ⟨c, (p + sent) % 2 ^ k, n⟩
        prepared := s.prepared + 1
        pc := pc } c p sent remaining s.prepared := by
  have hself : ∀ sqe, Function.update s.submissions s.prepared sqe s.prepared = sqe := by
    intro sqe
    rw [Function.update_self]
  have hgot : s.got s.prepared = 0 := got_of_none (h.unasked s.prepared (Nat.le_refl _))
  refine ⟨rfl, ?_, ?_, ?_, ?_, ?_, ?_, ?_⟩
  . dsimp only
    rw [hself]
  . dsimp only
    rw [hself]
  . dsimp only
    rw [hself]
    exact hle
  . dsimp only
    rw [hself]
    exact hfits
  . show s.got s.prepared ≤ _
    rw [hgot]
    exact Nat.zero_le _
  . show s.Taken c (sent + s.got s.prepared)
    rw [hgot]
    exact htaken
  . intro i hi hcall
    have hi : i < s.prepared := hi
    dsimp only at hcall ⊢
    rw [Function.update_of_ne (by omega)] at hcall
    exact hans i hi hcall

theorem Inv.loop (hk : k < 64) (h : Inv k s) (hpc : s.pc = .loop c remaining) : Inv k (s.loop c remaining) := by
  have hb := h.base
  obtain ⟨hcur, p, sent, hstored, htaken, hans⟩ : Stage k s (.loop c remaining) := hpc ▸ h.stage
  have hlen := hstored.len
  have hfits := hstored.fits
  have hcap := capacity_le hk
  unfold ZeroCopySend.loop
  dsimp only
  split
  . apply hb.ret hcur
    rw [htaken.accepted_iff]
    constructor
    . intro _
      omega
    . intro _
      rfl
  . next hpos =>
    generalize hchunk : acquire s.ring.capacity s.ring.head s.ring.tail remaining = chunk
    rw [hb.capacity, hstored.head, hstored.tail, acquire_eq hk _ (by omega) (by omega)] at hchunk
    split
    . split
      . exact h
      . exact hb.giveUp hcur htaken (by omega) (Int.le_refl 0)
    . next hne =>
      split
      . apply (hb.errno IoUringSender.EAGAIN).giveUp (hcur.frame rfl rfl) (htaken.frame rfl)
        . show sent < (s.messages c).length
          omega
        . decide
      . have hlast := hcur.last
        refine ⟨⟨hb.capacity, hb.tail, Nat.le_succ_of_le hb.submitted, ?_, ?_, hb.cq, hb.fresh, hb.truthful⟩,
          hcur.frame rfl rfl, p, sent, s.prepared, hstored.frame rfl rfl rfl, by omega, ?_⟩
        . intro i hi
          exact hb.unasked i (Nat.le_of_succ_le hi)
        . intro i hi
          dsimp only at hi ⊢
          by_cases heq : i = s.prepared
          . rw [heq, Function.update_self]
            dsimp only
            omega
          . rw [Function.update_of_ne heq]
            exact hb.calls i (by omega)
        . have hlt := Nat.mod_lt (p + sent) (capacity_pos (k := k))
          rw [hb.capacity, hstored.head, pos_eq hk]
          exact Asks.prepare hb htaken hans (by omega) (by omega) _

theorem got_lt (hu : s.Unfinished remaining) (hpos : 0 < remaining) (hasks : Asks k s c p sent remaining i)
    : s.got i < remaining := by
  have hlast := hasks.last
  have hi : s.prepared - 1 = i := by omega
  unfold Unfinished at hu
  unfold got
  rw [hi] at hu
  split
  . next res hres =>
    rw [hres] at hu
    dsimp only at hu
    omega
  . exact hpos

theorem Base.abandon {r : Int} (h : Base k s) (hcur : s.Current c) (hstored : Stored k s c p sent remaining)
    (hpos : 0 < remaining) (hasks : Asks k s c p sent remaining i) (hu : s.Unfinished remaining) (hr : r ≤ 0)
    : Inv k (s.ret c r) := by
  -- A call that gives up while its last submission has not brought the rest.
  have hlt := got_lt hu hpos hasks
  have hlen := hstored.len
  exact h.giveUp hcur hasks.taken (by omega) hr

theorem Base.fail (h : Base k s) (hstage : Stage k s (.wait c remaining)) (hu : s.Unfinished remaining) (err : Int)
    : Inv k ({ s with errno := err }.ret c (-1)) := by
  obtain ⟨hcur, p, sent, i, hstored, hpos, hasks⟩ := hstage
  apply (h.errno err).abandon (hcur.frame rfl rfl) (hstored.frame rfl rfl rfl) hpos
  . exact hasks.frame ⟨rfl, rfl, rfl, rfl, rfl, rfl, rfl, rfl, rfl⟩
  . exact hu
  . decide

theorem Inv.seen (hk : k < 64) (h : Inv k s) (hpc : s.pc = .wait c remaining) (hcareful : s.Careful .run)
    (hstep : s.seen c remaining = some s') : Inv k s' := by
  have hb := h.base
  obtain ⟨hcur, p, sent, i, hstored, hpos, hasks⟩ : Stage k s (.wait c remaining) := hpc ▸ h.stage
  unfold Careful at hcareful
  dsimp only at hcareful
  rw [hpc] at hcareful
  dsimp only at hcareful
  unfold ZeroCopySend.seen at hstep
  split at hstep
  . cases hstep
  . next e cq hcq =>
    rw [hcq] at hcareful
    cases e with
    | notification i' => exact hcareful.elim
    | result i' res =>
      have hlast := hasks.last
      have hi : i' = i := by
        dsimp only at hcareful
        omega
      rw [hi] at hcq
      have hanswer : s.answers i = some res := hb.cq i res (by rw [hcq]; exact List.mem_cons_self)
      have hgot : s.got i = res.toNat := by
        unfold got
        rw [hanswer]
      have hbounded := hasks.bounded
      have hle := hasks.le
      have hlen := hstored.len
      have hfits := hstored.fits
      have hcap := capacity_le hk
      have hcq' : ∀ i res, .result i res ∈ cq → s.answers i = some res := by
        intro i res hmem
        apply hb.cq i res
        rw [hcq]
        exact List.mem_cons_of_mem _ hmem
      dsimp only [Cqe.res] at hstep
      split at hstep
      . next hres =>
        cases hstep
        have hsub : sub64 remaining res.toNat = remaining - res.toNat := by
          unfold sub64
          apply Wrap.sub_eq_of_le
          . omega
          . omega
        rw [hsub]
        refine ⟨⟨hb.capacity, hb.tail, hb.submitted, hb.unasked, hb.calls, hcq', hb.fresh, hb.truthful⟩,
          hcur.frame rfl rfl, p, sent + res.toNat, ⟨?_, hfits, ?_, hstored.tail, hstored.origin⟩, ?_, ?_⟩
        . show sent + res.toNat + (remaining - res.toNat) = (s.messages c).length
          omega
        . show add64 s.ring.head res.toNat = (p + (sent + res.toNat)) % 2 ^ 64
          rw [hstored.head, add64_eq, Nat.add_assoc]
        . have htaken := hasks.taken
          rw [hgot] at htaken
          exact htaken
        . intro i'' hi'' hcall
          have hi'' : i'' < s.prepared := hi''
          show s.answers i'' ≠ none
          by_cases heq : i'' = i
          . rw [heq, hanswer]
            simp
          . exact hasks.answered i'' (by omega) hcall
      . next hres =>
        cases hstep
        have hreleased : Base k { s with
            cq := cq
            ring := s.ring.readRelease remaining
            errno := if res = 0 then IoUringSender.EIO else -res } :=
          ⟨hb.capacity, hb.tail, hb.submitted, hb.unasked, hb.calls, hcq', hb.fresh, hb.truthful⟩
        apply hreleased.giveUp (hcur.frame rfl rfl) (hasks.taken.frame rfl)
        . show sent + s.got i < (s.messages c).length
          omega
        . decide

theorem Inv.run (hk : k < 64) (h : Inv k s) (hcareful : s.Careful .run) (hstep : s.run = some s') : Inv k s' := by
  unfold ZeroCopySend.run at hstep
  split at hstep
  . cases hstep
  . next c hpc =>
    cases hstep
    exact h.push hk hpc hcareful
  . next c remaining hpc =>
    cases hstep
    exact h.loop hk hpc
  . cases hstep
  . next c remaining hpc => exact h.seen hk hpc hcareful hstep

theorem Inv.timeout (h : Inv k s) (hcareful : s.Careful .timeout) (hstep : s.timeout = some s') : Inv k s' := by
  have hb := h.base
  unfold ZeroCopySend.timeout at hstep
  split at hstep
  . next c remaining hpc hcq =>
    obtain ⟨hcur, p, sent, i, hstored, hpos, hasks⟩ : Stage k s (.wait c remaining) := hpc ▸ h.stage
    unfold Careful at hcareful
    dsimp only at hcareful
    rw [hpc] at hcareful
    split at hstep
    . cases hstep
      have hstage : Stage k s (.submit c remaining) := ⟨hcur, p, sent, i, hstored, hpos, hasks⟩
      exact ⟨⟨hb.capacity, hb.tail, hb.submitted, hb.unasked, hb.calls, hb.cq, hb.fresh, hb.truthful⟩,
        hstage.frame ⟨rfl, rfl, rfl, rfl, rfl, rfl, rfl, rfl, rfl⟩⟩
    . next hstopped =>
      cases hstep
      apply hb.abandon hcur hstored hpos hasks
      . exact hcareful (Bool.eq_false_iff.2 hstopped)
      . exact Int.le_refl 0
  . cases hstep

theorem Inv.post (h : Inv k s) (hstep : s.post i = some s') : Inv k s' := by
  have hb := h.base
  unfold ZeroCopySend.post at hstep
  split at hstep
  . next res hanswer =>
    split at hstep
    . cases hstep
    . cases hstep
      refine ⟨⟨hb.capacity, hb.tail, hb.submitted, hb.unasked, hb.calls, ?_, hb.fresh, hb.truthful⟩,
        h.stage.frame ⟨rfl, rfl, rfl, rfl, rfl, rfl, rfl, rfl, rfl⟩⟩
      intro i' res' hmem
      cases List.mem_append.1 hmem with
      | inl hold => exact hb.cq i' res' hold
      | inr hnew =>
        cases List.mem_singleton.1 hnew
        exact hanswer
  . cases hstep

theorem Inv.notify (h : Inv k s) (hstep : s.notify i = some s') : Inv k s' := by
  have hb := h.base
  unfold ZeroCopySend.notify at hstep
  split at hstep
  . cases hstep
    refine ⟨⟨hb.capacity, hb.tail, hb.submitted, hb.unasked, hb.calls, ?_, hb.fresh, hb.truthful⟩,
      h.stage.frame ⟨rfl, rfl, rfl, rfl, rfl, rfl, rfl, rfl, rfl⟩⟩
    intro i' res' hmem
    cases List.mem_append.1 hmem with
    | inl hold => exact hb.cq i' res' hold
    | inr hnew => cases List.mem_singleton.1 hnew
  . cases hstep

def answered (s : ZeroCopySend) (i : Nat) (res : Int) : ZeroCopySend :=
  { s with
    answers := Function.update s.answers i (some res)
    accepted := s.accepted ++ Cells.read s.origin (s.submissions i).ptr res.toNat }

theorem Base.answered (h : Base k s) {res : Int} (hi : i < s.prepared) (hnone : s.answers i = none)
    (hacc : ∀ c j, s.returned c ≠ none ∨ s.calls ≤ c →
      (some (c, j) ∈ (s.answered i res).accepted ↔ some (c, j) ∈ s.accepted))
    : Base k (s.answered i res) := by
  refine ⟨h.capacity, h.tail, h.submitted, ?_, h.calls, ?_, ?_, ?_⟩
  . intro i' hi'
    have hi' : s.prepared ≤ i' := hi'
    show Function.update s.answers i (some res) i' = none
    rw [Function.update_of_ne (by omega)]
    exact h.unasked i' hi'
  . intro i' res' hmem
    have hold := h.cq i' res' hmem
    show Function.update s.answers i (some res) i' = some res'
    rw [Function.update_of_ne]
    . exact hold
    . intro heq
      rw [heq, hnone] at hold
      cases hold
  . intro c hc
    refine ⟨(h.fresh c hc).1, ?_⟩
    intro j
    rw [← (h.fresh c hc).2 j]
    exact hacc c j (.inr hc)
  . intro c r hret
    have hret : s.returned c = some r := hret
    have hreturned : s.returned c ≠ none := by
      rw [hret]
      simp
    show r = (s.messages c).length ↔ ∀ j, j < (s.messages c).length → some (c, j) ∈ (s.answered i res).accepted
    rw [h.truthful c r hret]
    apply forall_congr'
    intro j
    apply imp_congr_right
    intro _
    exact (hacc c j (.inl hreturned)).symm

theorem Asks.origin_eq (hstored : Stored k s c p sent remaining) (hasks : Asks k s c p sent remaining i) {x : Nat}
    (hx : x < (s.submissions i).len) : s.origin ((s.submissions i).ptr + x) = some (c, sent + x) := by
  have hle := hasks.le
  have hlen := hstored.len
  have hcont := hasks.contiguous
  have hat := hstored.origin (sent + x) (by omega)
  rw [← Nat.add_assoc] at hat
  by_cases hfits : (p + sent) % 2 ^ k + x < 2 ^ k
  . rw [hasks.ptr, ← Cells.mod_add_of_fits hfits]
    exact hat
  . omega

theorem mem_read_iff (hstored : Stored k s c p sent remaining) (hasks : Asks k s c p sent remaining i) {n : Nat}
    (hn : n ≤ (s.submissions i).len) (c' j : Nat)
    : some (c', j) ∈ Cells.read s.origin (s.submissions i).ptr n ↔ c' = c ∧ sent ≤ j ∧ j < sent + n := by
  have horigin : ∀ x, x < n → s.origin ((s.submissions i).ptr + x) = some (c, sent + x) :=
    fun x hx => Asks.origin_eq hstored hasks (by omega)
  unfold Cells.read
  rw [List.mem_map]
  constructor
  . intro hmem
    obtain ⟨x, hx, heq⟩ := hmem
    rw [List.mem_range] at hx
    rw [horigin x hx] at heq
    cases heq
    exact ⟨rfl, by omega, by omega⟩
  . intro hmem
    obtain ⟨hc, hge, hlt⟩ := hmem
    refine ⟨j - sent, ?_, ?_⟩
    . rw [List.mem_range]
      omega
    . rw [horigin _ (by omega), hc, Nat.add_sub_cancel' hge]

theorem got_answered_self (s : ZeroCopySend) (i : Nat) (res : Int) : (s.answered i res).got i = res.toNat := by
  unfold got answered
  dsimp only
  rw [Function.update_self]

theorem got_answered_other (res : Int) {i' : Nat} (hne : i' ≠ i) : (s.answered i res).got i' = s.got i' := by
  unfold got answered
  dsimp only
  rw [Function.update_of_ne hne]

theorem answered_ne_none (res : Int) {i' : Nat} (h : s.answers i' ≠ none) : (s.answered i res).answers i' ≠ none := by
  show Function.update s.answers i (some res) i' ≠ none
  by_cases heq : i' = i
  . rw [heq, Function.update_self]
    simp
  . rw [Function.update_of_ne heq]
    exact h

theorem Asks.accept {i₀ : Nat} {res : Int} (hstored : Stored k s c p sent remaining)
    (hasks : Asks k s c p sent remaining i₀) (hnone : s.answers i = none) (hlen : res ≤ (s.submissions i).len)
    (hres : i ≠ i₀ → res ≤ 0) : Asks k (s.answered i res) c p sent remaining i₀ := by
  have htaken := hasks.taken
  refine ⟨hasks.last, hasks.call, hasks.ptr, hasks.le, hasks.contiguous, ?_, ?_, ?_⟩
  . by_cases heq : i = i₀
    . rw [heq] at hlen
      rw [heq, got_answered_self]
      show res.toNat ≤ (s.submissions i₀).len
      omega
    . rw [got_answered_other res (Ne.symm heq)]
      exact hasks.bounded
  . intro j
    show some (c, j) ∈ s.accepted ++ Cells.read s.origin (s.submissions i).ptr res.toNat ↔ _
    rw [List.mem_append, htaken j]
    by_cases heq : i = i₀
    . rw [heq] at hnone hlen
      rw [heq, mem_read_iff hstored hasks (by omega), got_answered_self, got_of_none hnone]
      omega
    . have hzero : res.toNat = 0 := Int.toNat_of_nonpos (hres heq)
      rw [got_answered_other res (Ne.symm heq), hzero]
      simp [Cells.read]
  . intro i' hi' hcall
    exact answered_ne_none res (hasks.answered i' hi' hcall)

theorem read_zero (s : ZeroCopySend) (i : Nat) {res : Int} (hres : res ≤ 0)
    : (s.answered i res).accepted = s.accepted := by
  unfold ZeroCopySend.answered
  rw [Int.toNat_of_nonpos hres]
  exact List.append_nil _

theorem Stage.asks {pc : SendPc} (h : Stage k s pc) (hnone : s.answers i = none) (hi : i < s.prepared)
    (hcall : (s.submissions i).call < s.calls) (hopen : s.returned (s.submissions i).call = none)
    : ∃ c remaining p sent, (pc = .submit c remaining ∨ pc = .wait c remaining) ∧ s.Current c ∧
        Stored k s c p sent remaining ∧ Asks k s c p sent remaining i := by
  -- A submission that brings bytes for a call that has not returned is the last one of the call in progress.
  have hown : ∀ c, s.Current c → (s.submissions i).call = c := by
    intro c hcur
    have hlast := hcur.last
    by_contra hne
    exact hcur.others _ (by omega) hopen
  have hlast : ∀ {c p sent remaining i₀}, s.Current c → Asks k s c p sent remaining i₀ → i₀ = i := by
    intro c p sent remaining i₀ hcur hasks
    have hlast := hasks.last
    by_contra hne
    exact hasks.answered i (by omega) (hown c hcur) hnone
  cases pc with
  | idle => exact absurd hopen (h _ hcall)
  | push c =>
    obtain ⟨hcur, _, _, hother⟩ := h
    exact absurd (hown c hcur) (hother i hi)
  | loop c remaining =>
    obtain ⟨hcur, _, _, _, _, hans⟩ := h
    exact absurd hnone (hans i hi (hown c hcur))
  | submit c remaining =>
    obtain ⟨hcur, p, sent, i₀, hstored, _, hasks⟩ := h
    obtain rfl := hlast hcur hasks
    exact ⟨c, remaining, p, sent, .inl rfl, hcur, hstored, hasks⟩
  | wait c remaining =>
    obtain ⟨hcur, p, sent, i₀, hstored, _, hasks⟩ := h
    obtain rfl := hlast hcur hasks
    exact ⟨c, remaining, p, sent, .inr rfl, hcur, hstored, hasks⟩

theorem Stage.answered {pc : SendPc} {res : Int} (h : Stage k s pc) (hnone : s.answers i = none)
    (hlen : res ≤ (s.submissions i).len) (hi : i < s.prepared) (hcall : (s.submissions i).call < s.calls)
    (hcareful : 0 < res → s.returned (s.submissions i).call = none) : Stage k (s.answered i res) pc := by
  have hasks := fun hpos => h.asks hnone hi hcall (hcareful hpos)
  -- without a submission in progress nothing can be brought
  have hnothing : (∀ c remaining, pc ≠ .submit c remaining ∧ pc ≠ .wait c remaining) → res ≤ 0 := by
    intro hother
    by_contra hpos
    obtain ⟨c, remaining, _, _, hpc, _⟩ := hasks (by omega)
    cases hpc with
    | inl hpc => exact (hother c remaining).1 hpc
    | inr hpc => exact (hother c remaining).2 hpc
  cases pc with
  | idle => exact h
  | push c =>
    have hres := hnothing (fun _ _ => ⟨nofun, nofun⟩)
    obtain ⟨hcur, hne, htaken, hother⟩ := h
    exact ⟨hcur.frame rfl rfl, hne, htaken.frame (read_zero s i hres), hother⟩
  | loop c remaining =>
    have hres := hnothing (fun _ _ => ⟨nofun, nofun⟩)
    obtain ⟨hcur, p, sent, hstored, htaken, hans⟩ := h
    refine ⟨hcur.frame rfl rfl, p, sent, hstored.frame rfl rfl rfl, htaken.frame (read_zero s i hres), ?_⟩
    intro i' hi' hcall'
    exact answered_ne_none res (hans i' hi' hcall')
  | submit c remaining | wait c remaining =>
    obtain ⟨hcur, p, sent, i₀, hstored, hpos, hown⟩ := h
    refine ⟨hcur.frame rfl rfl, p, sent, i₀, hstored.frame rfl rfl rfl, hpos, hown.accept hstored hnone hlen ?_⟩
    intro hne
    by_contra hres
    obtain ⟨_, _, _, _, _, _, _, hlast⟩ := hasks (by omega)
    have hfirst := hown.last
    have hsecond := hlast.last
    omega

theorem Inv.accept {res : Int} (h : Inv k s) (hcareful : s.Careful (.accepts i res))
    (hstep : s.accept i res = some s') : Inv k s' := by
  have hb := h.base
  have hcareful : 0 < res → s.returned (s.submissions i).call = none := hcareful
  unfold ZeroCopySend.accept at hstep
  dsimp only at hstep
  split at hstep
  . next hguard =>
    obtain ⟨hsubmitted, hnone, hlen⟩ := hguard
    have hi : i < s.prepared := Nat.lt_of_lt_of_le hsubmitted hb.submitted
    have hcall := hb.calls i hi
    cases hstep
    refine ⟨hb.answered hi hnone ?_, h.stage.answered hnone hlen hi hcall hcareful⟩
    intro c j hc
    by_cases hres : res ≤ 0
    . rw [read_zero s i hres]
    . obtain ⟨c₀, remaining, p, sent, _, hcur, hstored, hasks⟩ := h.stage.asks hnone hi hcall (hcareful (by omega))
      show some (c, j) ∈ s.accepted ++ Cells.read s.origin (s.submissions i).ptr res.toNat ↔ _
      rw [List.mem_append, mem_read_iff hstored hasks (by omega)]
      -- the call in progress has begun and not returned
      have hne : c ≠ c₀ := by
        intro heq
        rw [heq] at hc
        cases hc with
        | inl hreturned => exact hreturned hcur.unreturned
        | inr hnew =>
          have hlast := hcur.last
          omega
      simp [hne]
  . cases hstep

theorem Inv.next (hk : k < 64) {l : Label} (h : Inv k s) (hcareful : s.Careful l) (hstep : step s l = some s')
    : Inv k s' := by
  have hb := h.base
  cases l with
  | send m => exact h.send hstep
  | run => exact h.run hk hcareful hstep
  | submit n =>
    unfold step at hstep
    dsimp only at hstep
    split at hstep
    . next c remaining hpc =>
      have hstage : Stage k s (.wait c remaining) := by
        have hsubmit := h.stage
        rw [hpc] at hsubmit
        exact hsubmit
      split at hstep
      . next hle =>
        cases hstep
        exact ⟨⟨hb.capacity, hb.tail, hle, hb.unasked, hb.calls, hb.cq, hb.fresh, hb.truthful⟩,
          hstage.frame ⟨rfl, rfl, rfl, rfl, rfl, rfl, rfl, rfl, rfl⟩⟩
      . cases hstep
    . cases hstep
  | submitError err =>
    unfold step at hstep
    dsimp only at hstep
    split at hstep
    . next c remaining hpc =>
      have hstage : Stage k s (.submit c remaining) := hpc ▸ h.stage
      unfold Careful at hcareful
      dsimp only at hcareful
      rw [hpc] at hcareful
      cases hstep
      exact hb.fail hstage hcareful err
    . cases hstep
  | timeout => exact h.timeout hcareful hstep
  | waitError err =>
    unfold step at hstep
    dsimp only at hstep
    split at hstep
    . next c remaining hpc hcq =>
      have hstage : Stage k s (.wait c remaining) := hpc ▸ h.stage
      unfold Careful at hcareful
      dsimp only at hcareful
      rw [hpc] at hcareful
      cases hstep
      exact hb.fail hstage hcareful err
    . cases hstep
  | stop =>
    cases hstep
    exact ⟨⟨hb.capacity, hb.tail, hb.submitted, hb.unasked, hb.calls, hb.cq, hb.fresh, hb.truthful⟩,
      h.stage.frame ⟨rfl, rfl, rfl, rfl, rfl, rfl, rfl, rfl, rfl⟩⟩
  | accepts i res => exact h.accept hcareful hstep
  | post i => exact h.post hstep
  | notify i => exact h.notify hstep

theorem Inv.start (k : Nat) (buf : Nat → UInt8) : Inv k (start buf (2 ^ k)) := by
  refine ⟨⟨rfl, Nat.two_pow_pos 64, Nat.le_refl 0, fun _ _ => rfl, ?_, ?_, ?_, ?_⟩, ?_⟩
  . intro i hi
    exact absurd hi (Nat.not_lt_zero i)
  . intro i res hmem
    cases hmem
  . intro c _
    refine ⟨rfl, ?_⟩
    intro j
    constructor
    . intro hmem
      cases hmem
    . intro hlt
      exact absurd hlt (Nat.not_lt_zero j)
  . intro c r hret
    cases hret
  . intro c hc
    exact absurd hc (Nat.not_lt_zero c)

end ZeroCopySend

end NebulaXTrader
