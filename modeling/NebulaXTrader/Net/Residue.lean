import NebulaXTrader.Net.Truthful

/-!
This module contains what a send that fails leaves in the ring of the sender, and what the sends behind it transmit.
-/

namespace NebulaXTrader

namespace ZeroCopySend

open SPSCByteRing (pos acquire)

/--
The call ends by one of the exits that do not release the rest of its message.
-/
def GivesUp (s : ZeroCopySend) (l : Label) : Prop :=
  match l with
  | .run =>
    match s.pc with
    | .loop _ remaining =>
      acquire s.ring.capacity s.ring.head s.ring.tail remaining ≠ 0 ∧ kEntries ≤ s.prepared - s.submitted
    | _ => False
  | .submitError _ =>
    match s.pc with
    | .submit .. => True
    | _ => False
  | .waitError _ =>
    match s.pc with
    | .wait .. => True
    | _ => False
  | .timeout =>
    match s.pc with
    | .wait .. => s.running = false
    | _ => False
  | _ => False

instance (s : ZeroCopySend) (l : Label) : Decidable (s.GivesUp l) :=
  match l with
  | .run =>
    match hpc : s.pc with
    | .loop _ remaining =>
      decidable_of_iff (acquire s.ring.capacity s.ring.head s.ring.tail remaining ≠ 0 ∧
        kEntries ≤ s.prepared - s.submitted) (by unfold GivesUp; rw [hpc])
    | .idle | .push _ | .submit _ _ | .wait _ _ => isFalse (by unfold GivesUp; rw [hpc]; exact id)
  | .submitError _ =>
    match hpc : s.pc with
    | .submit _ _ => isTrue (by unfold GivesUp; rw [hpc]; trivial)
    | .idle | .push _ | .loop _ _ | .wait _ _ => isFalse (by unfold GivesUp; rw [hpc]; exact id)
  | .waitError _ =>
    match hpc : s.pc with
    | .wait _ _ => isTrue (by unfold GivesUp; rw [hpc]; trivial)
    | .idle | .push _ | .loop _ _ | .submit _ _ => isFalse (by unfold GivesUp; rw [hpc]; exact id)
  | .timeout =>
    match hpc : s.pc with
    | .wait _ _ => decidable_of_iff (s.running = false) (by unfold GivesUp; rw [hpc])
    | .idle | .push _ | .loop _ _ | .submit _ _ => isFalse (by unfold GivesUp; rw [hpc]; exact id)
  | .send _ | .submit _ | .stop | .accepts _ _ | .post _ | .notify _ => isFalse id

/--
A message is stored in an empty ring and not moved to the next lap, the wait takes the result of the last submission,
and a call that fails after the push fails by such a result.
-/
def Tidy (s : ZeroCopySend) (l : Label) : Prop := ¬ s.GivesUp l ∧ (l = .run → s.Careful .run)

instance (s : ZeroCopySend) (l : Label) : Decidable (s.Tidy l) := inferInstanceAs (Decidable (_ ∧ _))

/--
The ring holds a byte of the message of call `c`.
-/
def HoldsByte (s : ZeroCopySend) (c : Nat) : Prop :=
  ∃ x, x < sub64 s.ring.tail s.ring.head ∧ ∃ j, s.origin (pos s.ring.capacity (add64 s.ring.head x)) = some (c, j)

/--
The first `taken c` bytes of the message of each call, one call after the other.
-/
def stream (taken : Nat → Nat) (calls : Nat) : List (Option (Nat × Nat)) :=
  (List.range calls).flatMap (fun c => (List.range (taken c)).map (fun j => some (c, j)))

/--
No call that has returned has a byte left in the ring, and what the kernel has taken are the messages of the calls one
after the other, each from its first byte on and whole if and only if the call has returned its length.
-/
structure Clean (s : ZeroCopySend) : Prop where
  empty : ∀ c r, s.returned c = some r → ¬ s.HoldsByte c
  sent : ∃ taken : Nat → Nat, s.accepted = stream taken s.calls ∧
    ∀ c r, s.returned c = some r →
      taken c ≤ (s.messages c).length ∧ (r = (s.messages c).length ↔ taken c = (s.messages c).length)

variable {k : Nat} {s s' : ZeroCopySend} {c p sent remaining i : Nat} {taken : Nat → Nat}

theorem mem_stream_iff {calls j : Nat} : some (c, j) ∈ stream taken calls ↔ c < calls ∧ j < taken c := by
  unfold stream
  rw [List.mem_flatMap]
  constructor
  . intro hmem
    obtain ⟨c', hc', hmem⟩ := hmem
    obtain ⟨j', hj', heq⟩ := List.mem_map.1 hmem
    cases heq
    exact ⟨List.mem_range.1 hc', List.mem_range.1 hj'⟩
  . intro hmem
    exact ⟨c, List.mem_range.2 hmem.1, List.mem_map.2 ⟨j, List.mem_range.2 hmem.2, rfl⟩⟩

theorem stream_succ (taken : Nat → Nat) (calls : Nat)
    : stream taken (calls + 1) = stream taken calls ++ (List.range (taken calls)).map (fun j => some (calls, j)) := by
  unfold stream
  rw [List.range_succ, List.flatMap_append, List.flatMap_singleton]

theorem stream_congr {taken' : Nat → Nat} {calls : Nat} (h : ∀ c, c < calls → taken' c = taken c)
    : stream taken' calls = stream taken calls := by
  unfold stream
  apply List.flatMap_congr
  intro c hc
  rw [h c (List.mem_range.1 hc)]

/--
What the kernel has taken, in the order in which it was sent.
-/
structure InOrder (s : ZeroCopySend) (taken : Nat → Nat) : Prop where
  accepted : s.accepted = stream taken s.calls
  le : ∀ c, taken c ≤ (s.messages c).length

/--
The message of the call in progress, if there is one, is not in the ring yet.
-/
def SendPc.Unstored (pc : SendPc) : Prop :=
  match pc with
  | .idle | .push _ => True
  | _ => False

/--
Between two calls the ring is empty, and no submission of a call that has returned is unanswered.
-/
structure Settled (k : Nat) (s : ZeroCopySend) : Prop where
  inv : Inv k s
  empty : s.pc.Unstored → s.ring.isEmpty
  answered : ∀ i, i < s.prepared → s.returned (s.submissions i).call ≠ none → s.answers i ≠ none
  sent : ∃ taken, s.InOrder taken

theorem InOrder.taken_eq {n : Nat} (h : s.InOrder taken) (hc : c < s.calls) (htaken : s.Taken c n) : taken c = n := by
  have hiff : ∀ j, j < taken c ↔ j < n := by
    intro j
    rw [← htaken j, h.accepted, mem_stream_iff, and_iff_right hc]
  have hle := hiff n
  have hge := hiff (taken c)
  omega

theorem Settled.start (k : Nat) (buf : Nat → UInt8) : Settled k (start buf (2 ^ k)) := by
  refine ⟨Inv.start k buf, fun _ => rfl, ?_, fun _ => 0, rfl, fun _ => Nat.zero_le _⟩
  intro i hi
  exact absurd hi (Nat.not_lt_zero i)

theorem Settled.careful (h : Settled k s) {l : Label} (htidy : s.Tidy l) (hstep : step s l = some s') : s.Careful l := by
  obtain ⟨hstays, hrun⟩ := htidy
  unfold GivesUp at hstays
  cases l with
  | run => exact hrun rfl
  | submitError err =>
    unfold Careful
    dsimp only at hstays ⊢
    unfold step at hstep
    dsimp only at hstep
    split at hstep
    . next c remaining hpc =>
      rw [hpc] at hstays
      exact absurd trivial hstays
    . cases hstep
  | waitError err =>
    unfold Careful
    dsimp only at hstays ⊢
    unfold step at hstep
    dsimp only at hstep
    split at hstep
    . next c remaining hpc _ =>
      rw [hpc] at hstays
      exact absurd trivial hstays
    . cases hstep
  | timeout =>
    unfold Careful
    dsimp only at hstays ⊢
    split
    . next c remaining hpc =>
      rw [hpc] at hstays
      exact fun hstopped => absurd hstopped hstays
    . trivial
  | accepts i res =>
    intro _
    -- the kernel answers no submission twice
    have hguard : i < s.submitted ∧ s.answers i = none := by
      unfold step accept at hstep
      dsimp only at hstep
      split at hstep
      . next hguard => exact ⟨hguard.1, hguard.2.1⟩
      . cases hstep
    have hi := Nat.lt_of_lt_of_le hguard.1 h.inv.base.submitted
    by_contra hreturned
    exact h.answered i hi hreturned hguard.2
  | send m => trivial
  | submit n => trivial
  | stop => trivial
  | post i => trivial
  | notify i => trivial

theorem Stored.isEmpty (h : Stored k s c p sent 0) : s.ring.isEmpty := by
  have hlen := h.len
  unfold SPSCByteRing.isEmpty
  rw [h.head, h.tail, ← hlen]
  rfl

theorem Settled.frame (h : Settled k s) (hinv : Inv k s')
    (hempty : s'.pc.Unstored → s'.ring.isEmpty) (hcalls : s'.calls = s.calls)
    (hmessages : s'.messages = s.messages) (haccepted : s'.accepted = s.accepted) (hprepared : s'.prepared = s.prepared)
    (hsubmissions : s'.submissions = s.submissions) (hanswers : s'.answers = s.answers)
    (hreturned : ∀ i, i < s.prepared → s'.returned (s.submissions i).call ≠ none →
      s.returned (s.submissions i).call ≠ none ∨ s.answers i ≠ none)
    : Settled k s' := by
  obtain ⟨taken, hsent⟩ := h.sent
  refine ⟨hinv, hempty, ?_, taken, ?_, ?_⟩
  . intro i hi hret
    rw [hprepared] at hi
    rw [hsubmissions] at hret
    rw [hanswers]
    cases hreturned i hi hret with
    | inl hold => exact h.answered i hi hold
    | inr hans => exact hans
  . rw [haccepted, hcalls]
    exact hsent.accepted
  . rw [hmessages]
    exact hsent.le

theorem Settled.ret (h : Settled k s) {r : Int} {ring : SPSCByteRing} {errno : Int} {cq : List Cqe}
    (hinv : Inv k ({ s with ring := ring, errno := errno, cq := cq }.ret c r)) (hempty : ring.isEmpty)
    (hans : ∀ i, i < s.prepared → (s.submissions i).call = c → s.answers i ≠ none)
    : Settled k ({ s with ring := ring, errno := errno, cq := cq }.ret c r) := by
  apply h.frame hinv (fun _ => hempty) rfl rfl rfl rfl rfl rfl
  intro i hi hret
  by_cases hcall : (s.submissions i).call = c
  . exact Or.inr (hans i hi hcall)
  . left
    have hret : Function.update s.returned c (some r) (s.submissions i).call ≠ none := hret
    rw [Function.update_of_ne hcall] at hret
    exact hret

theorem Settled.send {m : List UInt8} (h : Settled k s) (hstep : s.send m = some s') : Settled k s' := by
  have hinv := h.inv.send hstep
  obtain ⟨taken, hsent⟩ := h.sent
  have hnone := (h.inv.base.fresh s.calls (Nat.le_refl _)).1
  unfold ZeroCopySend.send at hstep
  split at hstep
  . next hpc =>
    have hempty := h.empty (by rw [hpc]; trivial)
    have hnew : InOrder (s.called m) (Function.update taken s.calls 0) := by
      constructor
      . show s.accepted = stream _ (s.calls + 1)
        have hold : stream (Function.update taken s.calls 0) s.calls = stream taken s.calls :=
          stream_congr (fun c hc => Function.update_of_ne (Nat.ne_of_lt hc) _ _)
        rw [stream_succ, Function.update_self, hold, hsent.accepted]
        simp
      . intro c
        show _ ≤ (Function.update s.messages s.calls m c).length
        by_cases hc : c = s.calls
        . rw [hc, Function.update_self]
          exact Nat.zero_le _
        . rw [Function.update_of_ne hc, Function.update_of_ne hc]
          exact hsent.le c
    have hother : ∀ i, i < s.prepared → (s.submissions i).call ≠ s.calls :=
      fun i hi => Nat.ne_of_lt (h.inv.base.calls i hi)
    split at hstep
    . cases hstep
      refine ⟨hinv, fun _ => hempty, ?_, _, hnew.accepted, hnew.le⟩
      intro i hi hret
      apply h.answered i hi
      have hret : Function.update s.returned s.calls (some 0) (s.submissions i).call ≠ none := hret
      rw [Function.update_of_ne (hother i hi)] at hret
      exact hret
    . cases hstep
      exact ⟨hinv, fun _ => hempty, h.answered, _, hnew.accepted, hnew.le⟩
  . cases hstep

theorem Settled.push (h : Settled k s) (hpc : s.pc = .push c) (hinv : Inv k s') (hstep : s.push c = s')
    : Settled k s' := by
  have hempty := h.empty (by rw [hpc]; trivial)
  obtain ⟨-, -, -, hother⟩ : Stage k s (.push c) := hpc ▸ h.inv.stage
  unfold ZeroCopySend.push at hstep
  dsimp only at hstep
  split at hstep
  . subst hstep
    exact h.frame hinv False.elim rfl rfl rfl rfl rfl rfl (fun _ _ hret => Or.inl hret)
  . split at hstep
    . rw [← hstep]
      exact h
    . subst hstep
      exact h.ret hinv hempty (fun i hi hcall => absurd hcall (hother i hi))

theorem Settled.loop (hk : k < 64) (h : Settled k s) (hpc : s.pc = .loop c remaining) (htidy : s.Tidy .run)
    (hinv : Inv k s') (hstep : s.loop c remaining = s') : Settled k s' := by
  obtain ⟨hcur, p, sent, hstored, -, hans⟩ : Stage k s (.loop c remaining) := hpc ▸ h.inv.stage
  have hlen := hstored.len
  have hfits := hstored.fits
  have hcap := SPSCByteRing.capacity_le hk
  have hstays : ¬ (acquire s.ring.capacity s.ring.head s.ring.tail remaining ≠ 0 ∧
      kEntries ≤ s.prepared - s.submitted) := by
    have hstays := htidy.1
    unfold GivesUp at hstays
    dsimp only at hstays
    rw [hpc] at hstays
    exact hstays
  unfold ZeroCopySend.loop at hstep
  dsimp only at hstep
  split at hstep
  . next hzero =>
    subst hzero hstep
    exact h.ret hinv hstored.isEmpty hans
  . next hpos =>
    split at hstep
    . next hchunk =>
      split at hstep
      . rw [← hstep]
        exact h
      . -- the ring holds the rest of the message
        have hmod := Nat.mod_lt (p + sent) (SPSCByteRing.capacity_pos (k := k))
        rw [h.inv.base.capacity, hstored.head, hstored.tail, SPSCByteRing.acquire_eq hk _ (by omega) (by omega)]
          at hchunk
        omega
    . next hchunk =>
      split at hstep
      . next hfull => exact absurd ⟨hchunk, hfull⟩ hstays
      . subst hstep
        obtain ⟨taken, hsent⟩ := h.sent
        refine ⟨hinv, False.elim, ?_, taken, hsent.accepted, hsent.le⟩
        intro i hi hret
        have hi : i < s.prepared + 1 := hi
        dsimp only at hret ⊢
        by_cases hnew : i = s.prepared
        . rw [hnew, Function.update_self] at hret
          exact absurd hcur.unreturned hret
        . rw [Function.update_of_ne hnew] at hret
          exact h.answered i (by omega) hret

theorem Settled.seen (h : Settled k s) (hpc : s.pc = .wait c remaining) (hcareful : s.Careful .run)
    (hinv : Inv k s') (hstep : s.seen c remaining = some s') : Settled k s' := by
  have hb := h.inv.base
  obtain ⟨hcur, p, sent, i, hstored, hpos, hasks⟩ : Stage k s (.wait c remaining) := hpc ▸ h.inv.stage
  unfold Careful at hcareful
  dsimp only at hcareful
  rw [hpc] at hcareful
  dsimp only at hcareful
  unfold ZeroCopySend.seen at hstep
  split at hstep
  . cases hstep
  . next e cq hcq =>
    rw [hcq] at hcareful
    cases e with
    | notification i' => exact hcareful.elim
    | result i' res =>
      have hlast := hasks.last
      have hi : i' = i := by
        dsimp only at hcareful
        omega
      rw [hi] at hcq
      have hanswer : s.answers i = some res := hb.cq i res (by rw [hcq]; exact List.mem_cons_self)
      dsimp only [Cqe.res] at hstep
      split at hstep
      . cases hstep
        exact h.frame hinv False.elim rfl rfl rfl rfl rfl rfl (fun _ _ hret => Or.inl hret)
      . cases hstep
        refine h.ret hinv ?_ ?_
        . have hlen := hstored.len
          show add64 s.ring.head remaining = s.ring.tail
          rw [hstored.head, hstored.tail, SPSCByteRing.add64_eq, Nat.add_assoc, hlen]
        . intro i'' hi'' hcall
          by_cases heq : i'' = i
          . rw [heq, hanswer]
            simp
          . exact hasks.answered i'' (by omega) hcall

theorem InOrder.accept {res : Int} (h : s.InOrder taken) (hcur : s.Current c) (hstored : Stored k s c p sent remaining)
    (hasks : Asks k s c p sent remaining i) (hnone : s.answers i = none) (hlen : res ≤ (s.submissions i).len)
    : InOrder (s.answered i res) (Function.update taken c (sent + res.toNat)) := by
  have hlast := hcur.last
  have hle := hasks.le
  have hstoredlen := hstored.len
  have htaken : taken c = sent := by
    have htaken := hasks.taken
    rw [got_of_none hnone, Nat.add_zero] at htaken
    exact h.taken_eq (by omega) htaken
  have hread : Cells.read s.origin (s.submissions i).ptr res.toNat =
      (List.range res.toNat).map (fun x => some (c, sent + x)) := by
    apply List.map_congr_left
    intro x hx
    have hx := List.mem_range.1 hx
    exact Asks.origin_eq hstored hasks (by omega)
  constructor
  . show s.accepted ++ Cells.read s.origin (s.submissions i).ptr res.toNat = stream _ s.calls
    rw [hread, h.accepted, ← hlast, stream_succ, stream_succ, Function.update_self, htaken, List.range_add,
      List.map_append, List.map_map, ← List.append_assoc]
    congr 2
    symm
    apply stream_congr
    intro c' hc'
    exact Function.update_of_ne (by omega) _ _
  . intro c'
    show Function.update taken c (sent + res.toNat) c' ≤ (s.messages c').length
    by_cases hc' : c' = c
    . rw [hc', Function.update_self]
      omega
    . rw [Function.update_of_ne hc']
      exact h.le c'

theorem Settled.accept {res : Int} (h : Settled k s) (hcareful : s.Careful (.accepts i res)) (hinv : Inv k s')
    (hstep : s.accept i res = some s') : Settled k s' := by
  have hb := h.inv.base
  obtain ⟨taken, hsent⟩ := h.sent
  have hcareful : 0 < res → s.returned (s.submissions i).call = none := hcareful
  unfold ZeroCopySend.accept at hstep
  dsimp only at hstep
  split at hstep
  . next hguard =>
    obtain ⟨hsubmitted, hnone, hlen⟩ := hguard
    have hi : i < s.prepared := Nat.lt_of_lt_of_le hsubmitted hb.submitted
    cases hstep
    refine ⟨hinv, h.empty, fun i' hi' hret => answered_ne_none res (h.answered i' hi' hret), ?_⟩
    by_cases hres : res ≤ 0
    . exact ⟨taken, (read_zero s i hres).trans hsent.accepted, hsent.le⟩
    . obtain ⟨c, remaining, p, sent, -, hcur, hstored, hasks⟩ :=
        h.inv.stage.asks hnone hi (hb.calls i hi) (hcareful (by omega))
      exact ⟨_, hsent.accept hcur hstored hasks hnone hlen⟩
  . cases hstep

theorem Settled.next (hk : k < 64) (h : Settled k s) {l : Label} (htidy : s.Tidy l) (hstep : step s l = some s')
    : Settled k s' := by
  have hcareful := h.careful htidy hstep
  have hinv := h.inv.next hk hcareful hstep
  cases l with
  | send m => exact h.send hstep
  | run =>
    have hstep : s.run = some s' := hstep
    unfold ZeroCopySend.run at hstep
    split at hstep
    . cases hstep
    . next c hpc => exact h.push hpc hinv (Option.some.inj hstep)
    . next c remaining hpc => exact h.loop hk hpc htidy hinv (Option.some.inj hstep)
    . cases hstep
    . next c remaining hpc => exact h.seen hpc hcareful hinv hstep
  | submit n =>
    unfold ZeroCopySend.step at hstep
    dsimp only at hstep
    split at hstep
    . split at hstep
      . cases hstep
        exact h.frame hinv False.elim rfl rfl rfl rfl rfl rfl (fun _ _ hret => Or.inl hret)
      . cases hstep
    . cases hstep
  | submitError err =>
    have hstays := htidy.1
    unfold ZeroCopySend.step at hstep
    unfold GivesUp at hstays
    dsimp only at hstep hstays
    split at hstep
    . next hpc =>
      rw [hpc] at hstays
      exact absurd trivial hstays
    . cases hstep
  | timeout =>
    have hstays := htidy.1
    have hstep : s.timeout = some s' := hstep
    unfold ZeroCopySend.timeout at hstep
    unfold GivesUp at hstays
    dsimp only at hstays
    split at hstep
    . next hpc _ =>
      rw [hpc] at hstays
      split at hstep
      . cases hstep
        exact h.frame hinv False.elim rfl rfl rfl rfl rfl rfl (fun _ _ hret => Or.inl hret)
      . next hstopped => exact absurd (Bool.eq_false_iff.2 hstopped) hstays
    . cases hstep
  | waitError err =>
    have hstays := htidy.1
    unfold ZeroCopySend.step at hstep
    unfold GivesUp at hstays
    dsimp only at hstep hstays
    split at hstep
    . next hpc _ =>
      rw [hpc] at hstays
      exact absurd trivial hstays
    . cases hstep
  | stop =>
    cases hstep
    exact h.frame hinv h.empty rfl rfl rfl rfl rfl rfl (fun _ _ hret => Or.inl hret)
  | accepts i res => exact h.accept hcareful hinv hstep
  | post i =>
    have hstep : s.post i = some s' := hstep
    unfold ZeroCopySend.post at hstep
    split at hstep
    . split at hstep
      . cases hstep
      . cases hstep
        exact h.frame hinv h.empty rfl rfl rfl rfl rfl rfl (fun _ _ hret => Or.inl hret)
    . cases hstep
  | notify i =>
    have hstep : s.notify i = some s' := hstep
    unfold ZeroCopySend.notify at hstep
    split at hstep
    . cases hstep
      exact h.frame hinv h.empty rfl rfl rfl rfl rfl rfl (fun _ _ hret => Or.inl hret)
    . cases hstep

theorem Stored.origin_eq (hk : k < 64) (hcapacity : s.ring.capacity = 2 ^ k) (h : Stored k s c p sent remaining)
    {x : Nat} (hx : x < sub64 s.ring.tail s.ring.head)
    : s.origin (pos s.ring.capacity (add64 s.ring.head x)) = some (c, sent + x) := by
  have hlen := h.len
  have hfits := h.fits
  have hcap := SPSCByteRing.capacity_le hk
  rw [h.head, h.tail, SPSCByteRing.sub64_eq (by omega) (by omega)] at hx
  rw [hcapacity, h.head, SPSCByteRing.add64_eq, SPSCByteRing.pos_eq hk, Nat.add_assoc]
  exact h.origin (sent + x) (by omega)

theorem Stored.holdsByte (hk : k < 64) (hcapacity : s.ring.capacity = 2 ^ k) (h : Stored k s c p sent remaining)
    (hpos : 0 < remaining) : s.HoldsByte c := by
  have hlen := h.len
  have hfits := h.fits
  have hcap := SPSCByteRing.capacity_le hk
  have hzero : 0 < sub64 s.ring.tail s.ring.head := by
    rw [h.head, h.tail, SPSCByteRing.sub64_eq (by omega) (by omega)]
    omega
  exact ⟨0, hzero, sent, h.origin_eq hk hcapacity hzero⟩

theorem Settled.clean (hk : k < 64) (h : Settled k s) : s.Clean := by
  have hb := h.inv.base
  constructor
  . intro c r hret hholds
    obtain ⟨x, hx, j, hj⟩ := hholds
    have hnothing : s.ring.isEmpty → False := by
      intro hempty
      have hsame : s.ring.head = s.ring.tail := hempty
      have hzero : sub64 s.ring.tail s.ring.head = 0 := by
        rw [hsame]
        exact (Wrap.sub_eq_of_le (Nat.le_refl _) hb.tail).trans (Nat.sub_self _)
      omega
    have hother : ∀ {c' p sent remaining}, s.Current c' → Stored k s c' p sent remaining → False := by
      intro c' p sent remaining hcur hstored
      rw [hstored.origin_eq hk hb.capacity hx] at hj
      cases hj
      rw [hcur.unreturned] at hret
      cases hret
    have hstage := h.inv.stage
    cases hpc : s.pc with
    | idle => exact hnothing (h.empty (by rw [hpc]; trivial))
    | push c' => exact hnothing (h.empty (by rw [hpc]; trivial))
    | loop c' remaining =>
      rw [hpc] at hstage
      obtain ⟨hcur, p, sent, hstored, -⟩ := hstage
      exact hother hcur hstored
    | submit c' remaining =>
      rw [hpc] at hstage
      obtain ⟨hcur, p, sent, i, hstored, -⟩ := hstage
      exact hother hcur hstored
    | wait c' remaining =>
      rw [hpc] at hstage
      obtain ⟨hcur, p, sent, i, hstored, -⟩ := hstage
      exact hother hcur hstored
  . obtain ⟨taken, hsent⟩ := h.sent
    refine ⟨taken, hsent.accepted, ?_⟩
    intro c r hret
    have hcall : c < s.calls := by
      by_contra hge
      have hnone := (hb.fresh c (by omega)).1
      rw [hnone] at hret
      cases hret
    have htaken : s.Taken c (taken c) := by
      intro j
      rw [hsent.accepted, mem_stream_iff, and_iff_right hcall]
    have hle := hsent.le c
    refine ⟨hle, ?_⟩
    rw [hb.truthful c r hret, htaken.accepted_iff]
    omega

theorem Settled.givesUp (hk : k < 64) (h : Settled k s) {l : Label} (hgives : s.GivesUp l) (hstep : step s l = some s')
    : ∃ c r, s.returned c = none ∧ s'.returned c = some r ∧ r ≤ 0 ∧ s'.HoldsByte c := by
  have hcapacity := h.inv.base.capacity
  have hstage := h.inv.stage
  unfold GivesUp at hgives
  cases l with
  | run =>
    dsimp only at hgives
    split at hgives
    . next c remaining hpc =>
      rw [hpc] at hstage
      obtain ⟨hcur, p, sent, hstored, -⟩ := hstage
      have hpos : remaining ≠ 0 := by
        intro hzero
        have hnone := hgives.1
        rw [hzero] at hnone
        unfold SPSCByteRing.acquire at hnone
        dsimp only at hnone
        rw [if_pos (Or.inr rfl)] at hnone
        exact hnone rfl
      have hstep : s.run = some s' := hstep
      unfold ZeroCopySend.run at hstep
      rw [hpc] at hstep
      dsimp only at hstep
      unfold ZeroCopySend.loop at hstep
      dsimp only at hstep
      rw [if_neg hpos, if_neg hgives.1, if_pos hgives.2] at hstep
      cases hstep
      have hholds : s.HoldsByte c := hstored.holdsByte hk hcapacity (Nat.pos_of_ne_zero hpos)
      exact ⟨c, -1, hcur.unreturned, Function.update_self _ _ _, by decide, hholds⟩
    . cases hgives
  | submitError err =>
    dsimp only at hgives
    split at hgives
    . next c remaining hpc =>
      rw [hpc] at hstage
      obtain ⟨hcur, p, sent, i, hstored, hpos, -⟩ := hstage
      unfold ZeroCopySend.step at hstep
      dsimp only at hstep
      rw [hpc] at hstep
      cases hstep
      have hholds : s.HoldsByte c := hstored.holdsByte hk hcapacity hpos
      exact ⟨c, -1, hcur.unreturned, Function.update_self _ _ _, by decide, hholds⟩
    . cases hgives
  | waitError err =>
    dsimp only at hgives
    split at hgives
    . next c remaining hpc =>
      rw [hpc] at hstage
      obtain ⟨hcur, p, sent, i, hstored, hpos, -⟩ := hstage
      unfold ZeroCopySend.step at hstep
      dsimp only at hstep
      split at hstep
      . next c' remaining' hpc' _ =>
        rw [hpc] at hpc'
        cases hpc'
        cases hstep
        have hholds : s.HoldsByte c := hstored.holdsByte hk hcapacity hpos
        exact ⟨c, -1, hcur.unreturned, Function.update_self _ _ _, by decide, hholds⟩
      . cases hstep
    . cases hgives
  | timeout =>
    dsimp only at hgives
    split at hgives
    . next c remaining hpc =>
      rw [hpc] at hstage
      obtain ⟨hcur, p, sent, i, hstored, hpos, -⟩ := hstage
      have hstep : s.timeout = some s' := hstep
      unfold ZeroCopySend.timeout at hstep
      split at hstep
      . next c' remaining' hpc' _ =>
        rw [hpc] at hpc'
        cases hpc'
        rw [hgives, if_neg Bool.false_ne_true] at hstep
        cases hstep
        have hholds : s.HoldsByte c := hstored.holdsByte hk hcapacity hpos
        exact ⟨c, 0, hcur.unreturned, Function.update_self _ _ _, Int.le_refl 0, hholds⟩
      . cases hstep
    . cases hgives
  | _ => cases hgives

/--
In a run whose calls are tidy no call that has returned leaves a byte behind, and a call transmits its own bytes from the
first one on. A call that gives up in such a run always leaves bytes behind.
-/
theorem clean_of_tidy (hk : k < 64) (buf : Nat → UInt8) {labels : List Label}
    (htidy : Run.Along step Tidy (start buf (2 ^ k)) labels)
    (hrun : Run.exec step (start buf (2 ^ k)) labels = some s)
    : s.Clean ∧ ∀ l s', s.GivesUp l → step s l = some s' →
        ∃ c r, s.returned c = none ∧ s'.returned c = some r ∧ r ≤ 0 ∧ s'.HoldsByte c := by
  have hsettled : Settled k s :=
    Run.exec_inv (fun _ _ _ h hgood hstep => Settled.next hk h hgood hstep) (Settled.start k buf) htidy hrun
  exact ⟨hsettled.clean hk, fun l s' hgives hstep => hsettled.givesUp hk hgives hstep⟩

/--
An order of which the kernel takes 20 bytes before the connection breaks, then a cancel request in two pieces.
-/
def orderAndCancel : List Label :=
  [.send (List.replicate 49 79), .run, .run, .submit 1, .accepts 0 20, .post 0, .run,
    .run, .submit 1, .accepts 1 (-32), .post 1, .run,
    .send (List.replicate 19 88), .run, .run, .submit 1, .accepts 2 12, .post 2, .run,
    .run, .submit 1, .accepts 3 7, .post 3, .run, .run]

theorem clean_of_tidy_orderAndCancel
    : ∃ s, Run.exec step (start (fun _ => 0) (2 ^ 7)) orderAndCancel = some s ∧ s.returned 0 = some (-1) ∧
        s.returned 1 = some 19 ∧ s.Clean := by
  have hend : (Run.exec step (start (fun _ => 0) (2 ^ 7)) orderAndCancel).map
      (fun s => (s.returned 0, s.returned 1)) = some (some (-1), some 19) := by
    decide +kernel
  obtain ⟨s, hrun, hreturned⟩ := Option.map_eq_some_iff.1 hend
  rw [Prod.mk.injEq] at hreturned
  exact ⟨s, hrun, hreturned.1, hreturned.2, (clean_of_tidy (by decide) (fun _ => 0) (by decide +kernel) hrun).1⟩

/--
The wait for the completion of the order fails, then the cancel request is sent.
-/
def waitFails : List Label :=
  [.send (List.replicate 49 79), .run, .run, .submit 1, .waitError 9,
    .send (List.replicate 19 88), .run, .run, .submit 1, .accepts 1 19, .post 1, .run, .run]

theorem not_clean
    : ¬ ∀ labels s, Run.exec step (start (fun _ => 0) (2 ^ 7)) labels = some s → s.Clean := by
  -- The first 19 bytes of the order that failed go out in place of the cancel request.
  intro h
  have hend : (Run.exec step (start (fun _ => 0) (2 ^ 7)) waitFails).map
      (fun s => (s.calls, s.returned 1, (s.messages 1).length)) = some (2, some 19, 19) := by
    decide +kernel
  have hold : (Run.exec step (start (fun _ => 0) (2 ^ 7)) waitFails).map (fun s => s.accepted) =
      some ((List.range 19).map (fun j => some (0, j))) := by
    decide +kernel
  obtain ⟨s, hrun, hvalues⟩ := Option.map_eq_some_iff.1 hend
  rw [hrun, Option.map_some, Option.some.injEq] at hold
  simp only [Prod.mk.injEq] at hvalues
  obtain ⟨hcalls, hreturned, hlen⟩ := hvalues
  obtain ⟨taken, hsent, hown⟩ := (h waitFails s hrun).sent
  have hwhole := (hown 1 19 hreturned).2
  rw [hlen] at hwhole
  have htaken := hwhole.1 rfl
  have hmem : some (1, 0) ∈ s.accepted := by
    rw [hsent, mem_stream_iff, hcalls, htaken]
    decide
  rw [hold] at hmem
  revert hmem
  decide

end ZeroCopySend

end NebulaXTrader
