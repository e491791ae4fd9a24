import NebulaXTrader.Queue.SPSCEventRing

/-!
This module contains the lemmas about one access of a call, given what the call knows and what the ring
holds: what the access does to the queue that the ring stands for and what the call knows then.
-/

namespace NebulaXTrader

namespace SPSCEventRing

variable {α : Type} {r r' : SPSCEventRing α} {h : Nat} {q q' : List α} {ev : α}

/--
`h` events have left the ring, the events of `q` are in it.
-/
structure Holds (r : SPSCEventRing α) (h : Nat) (q : List α) : Prop where
  cap : ∃ k, k < 64 ∧ r.capacity = 2 ^ k
  head : r.head = h % 2 ^ 64
  tail : r.tail = (h + q.length) % 2 ^ 64
  fits : q.length ≤ r.capacity
  content : ∀ j (hj : j < q.length), r.slots ((h + j) % r.capacity) = q[j]

theorem Holds.slot_mod (hr : r.Holds h q) (a : Nat) : r.slot (a % 2 ^ 64) = a % r.capacity := by
  cases hr.cap with
  | intro k hk =>
    unfold slot
    rw [hk.2]
    apply Wrap.mod_and_mask
    exact Nat.pow_dvd_pow 2 (by omega)

theorem Holds.capacity_le (hr : r.Holds h q) : r.capacity ≤ 2 ^ 63 := by
  cases hr.cap with
  | intro k hk =>
    rw [hk.2]
    apply Nat.pow_le_pow_right
    . omega
    . omega

theorem Holds.sub_head (hr : r.Holds h q) {n : Nat} (hn : n ≤ q.length)
    : Wrap.sub (2 ^ 64) ((h + n) % 2 ^ 64) r.head = n := by
  have hcap := hr.capacity_le
  have hfits := hr.fits
  rw [hr.head, Wrap.sub_mod]
  . omega
  . omega
  . omega

theorem Holds.tail_eq_head_iff (hr : r.Holds h q) : r.head = r.tail ↔ q = [] := by
  constructor
  . intro heq
    have hsub := hr.sub_head (Nat.le_refl q.length)
    have hzero := hr.sub_head (Nat.zero_le q.length)
    rw [← hr.tail, ← heq] at hsub
    rw [Nat.add_zero, ← hr.head, hsub] at hzero
    exact List.eq_nil_of_length_eq_zero hzero
  . intro hq
    rw [hr.head, hr.tail, hq]
    rfl

theorem Holds.first {ev : α} {rest : List α} (hr : r.Holds h (ev :: rest)) : r.slots (r.slot r.head) = ev := by
  have hfirst := hr.content 0 (Nat.zero_lt_succ _)
  rw [hr.head, hr.slot_mod]
  exact hfirst

structure Consumed (r r' : SPSCEventRing α) : Prop where
  capacity : r'.capacity = r.capacity
  tail : r'.tail = r.tail
  slots : r'.slots = r.slots

theorem Consumed.refl (r : SPSCEventRing α) : r.Consumed r := ⟨rfl, rfl, rfl⟩

def PushPc.Knows (pc : PushPc) (r : SPSCEventRing α) (q : List α) (ev : α) : Prop :=
  match pc with
  | .loadTail => True
  | .loadHead tail => tail = r.tail
  | .writeSlot tail => tail = r.tail ∧ q.length < r.capacity
  | .storeTail tail => tail = r.tail ∧ q.length < r.capacity ∧ r.slots (r.slot tail) = ev

def PopPc.Knows (pc : PopPc α) (r : SPSCEventRing α) (q : List α) : Prop :=
  match pc with
  | .loadHead => True
  | .loadTail head => head = r.head
  | .readSlot head => head = r.head ∧ q ≠ []
  | .storeHead head ev => head = r.head ∧ ∃ rest, q = ev :: rest

def PeekPc.Knows (pc : PeekPc) (r : SPSCEventRing α) (q : List α) : Prop :=
  match pc with
  | .loadHead => True
  | .loadTail head => head = r.head
  | .readSlot head => head = r.head ∧ q ≠ []

/--
The tail that the call has loaded may be an old one, while the head is still where it was.
-/
def PendingPc.Knows (pc : PendingPc) (r : SPSCEventRing α) (q : List α) : Prop :=
  match pc with
  | .loadTail => True
  | .loadHead tail => ∃ m, m ≤ q.length ∧ tail = Wrap.add (2 ^ 64) r.head m

theorem Holds.push (hr : r.Holds h q) {pc : PushPc} (hpc : pc.Knows r q ev)
    : match r.push ev pc with
      | (r', .next pc') => r'.Holds h q ∧ r'.capacity = r.capacity ∧ r'.head = r.head ∧ pc'.Knows r' q ev
      | (r', .ret true) => r'.Holds h (q ++ [ev]) ∧ r'.capacity = r.capacity ∧ r'.head = r.head
      | (r', .ret false) => r' = r ∧ q.length = r.capacity := by
  have hcap := hr.capacity_le
  have hfits := hr.fits
  cases pc with
  | loadTail => exact ⟨hr, rfl, rfl, rfl⟩
  | loadHead tail =>
    have htail : tail = r.tail := hpc
    have hsub := hr.sub_head (Nat.le_refl q.length)
    rw [← hr.tail, ← htail] at hsub
    unfold SPSCEventRing.push
    dsimp only
    rw [hsub]
    by_cases hfull : q.length ≥ r.capacity
    . rw [if_pos hfull]
      exact ⟨rfl, by omega⟩
    . rw [if_neg hfull]
      exact ⟨hr, rfl, rfl, htail, by omega⟩
  | writeSlot tail =>
    have htail : tail = r.tail := hpc.1
    have hroom : q.length < r.capacity := hpc.2
    have hslot : r.slot tail = (h + q.length) % r.capacity := by
      rw [htail, hr.tail, hr.slot_mod]
    refine ⟨⟨hr.cap, hr.head, hr.tail, hr.fits, ?_⟩, rfl, rfl, htail, hroom, ?_⟩
    . intro j hj
      dsimp only
      -- the slot is free: no position of the queue has the same place in the ring
      have hne : (h + j) % r.capacity ≠ r.slot tail := by
        rw [hslot]
        intro heq
        have hmod := Wrap.eq_of_mod_eq (W := r.capacity) (by omega) (by omega) heq.symm
        omega
      rw [Function.update_of_ne hne]
      exact hr.content j hj
    . exact Function.update_self _ _ _
  | storeTail tail =>
    have htail : tail = r.tail := hpc.1
    have hroom : q.length < r.capacity := hpc.2.1
    have hslot : r.slot tail = (h + q.length) % r.capacity := by
      rw [htail, hr.tail, hr.slot_mod]
    refine ⟨⟨hr.cap, hr.head, ?_, ?_, ?_⟩, rfl, rfl⟩
    . dsimp only
      rw [htail, hr.tail, Wrap.add_mod, List.length_append, Nat.add_assoc]
      rfl
    . rw [List.length_append]
      exact hroom
    . intro j hj
      dsimp only
      rw [List.getElem_append]
      split
      . next hlt => exact hr.content j hlt
      . next hge =>
        rw [List.length_append, List.length_singleton] at hj
        have heq : j = q.length := by omega
        subst heq
        rw [← hslot]
        simp only [Nat.sub_self, List.getElem_cons_zero]
        exact hpc.2.2

theorem Holds.pop (hr : r.Holds h q) {pc : PopPc α} (hpc : pc.Knows r q)
    : match r.pop pc with
      | (r', .next pc') => r' = r ∧ pc'.Knows r q
      | (r', .ret none) => r' = r ∧ q = []
      | (r', .ret (some ev)) => ∃ rest, q = ev :: rest ∧ r'.Holds (h + 1) rest ∧
          r'.capacity = r.capacity ∧ r'.tail = r.tail ∧ r'.slots = r.slots := by
  cases pc with
  | loadHead => exact ⟨rfl, rfl⟩
  | loadTail head =>
    have hhead : head = r.head := hpc
    unfold SPSCEventRing.pop
    dsimp only
    rw [hhead]
    by_cases hempty : r.head = r.tail
    . rw [if_pos hempty]
      exact ⟨rfl, hr.tail_eq_head_iff.1 hempty⟩
    . rw [if_neg hempty]
      exact ⟨rfl, rfl, fun hq => hempty (hr.tail_eq_head_iff.2 hq)⟩
  | readSlot head =>
    have hhead : head = r.head := hpc.1
    refine ⟨rfl, hhead, ?_⟩
    cases q with
    | nil => exact absurd rfl hpc.2
    | cons x rest =>
      refine ⟨rest, ?_⟩
      rw [hhead, hr.first]
  | storeHead head ev =>
    have hhead : head = r.head := hpc.1
    cases hpc.2 with
    | intro rest hq =>
      subst hq
      refine ⟨rest, rfl, ⟨hr.cap, ?_, ?_, ?_, ?_⟩, rfl, rfl, rfl⟩
      . dsimp only
        rw [hhead, hr.head, Wrap.add_mod]
      . dsimp only
        rw [hr.tail, List.length_cons, Nat.add_assoc, Nat.add_comm 1]
      . have hfits := hr.fits
        rw [List.length_cons] at hfits
        dsimp only
        omega
      . intro j hj
        have hnext := hr.content (j + 1) (by simpa using hj)
        rw [List.getElem_cons_succ] at hnext
        dsimp only
        rw [Nat.add_assoc, Nat.add_comm 1]
        exact hnext

theorem Holds.push_full (hr : r.Holds h q) {pc : PushPc} (hpc : pc.Knows r q ev)
    (hret : (r.push ev pc).2 = .ret false) : q.length = r.capacity := by
  have hpush := hr.push hpc
  cases hres : r.push ev pc with
  | mk ring progress =>
    rw [hres] at hpush hret
    dsimp only at hret
    rw [hret] at hpush
    exact hpush.2

theorem Holds.pop_none (hr : r.Holds h q) {pc : PopPc α} (hpc : pc.Knows r q) (hret : (r.pop pc).2 = .ret none)
    : q = [] := by
  have hpop := hr.pop hpc
  cases hres : r.pop pc with
  | mk ring progress =>
    rw [hres] at hpop hret
    dsimp only at hret
    rw [hret] at hpop
    exact hpop.2

theorem Holds.pop_some (hr : r.Holds h q) {pc : PopPc α} (hpc : pc.Knows r q)
    (hret : (r.pop pc).2 = .ret (some ev)) : ∃ rest, q = ev :: rest := by
  have hpop := hr.pop hpc
  cases hres : r.pop pc with
  | mk ring progress =>
    rw [hres] at hpop hret
    dsimp only at hret
    rw [hret] at hpop
    cases hpop with
    | intro rest hrest => exact ⟨rest, hrest.1⟩

theorem Holds.peek (hr : r.Holds h q) {pc : PeekPc} (hpc : pc.Knows r q)
    : match r.peek pc with
      | .next pc' => pc'.Knows r q
      | .ret none => q = []
      | .ret (some ev) => ∃ rest, q = ev :: rest := by
  cases pc with
  | loadHead => exact rfl
  | loadTail head =>
    have hhead : head = r.head := hpc
    unfold SPSCEventRing.peek
    dsimp only
    rw [hhead]
    by_cases hempty : r.head = r.tail
    . rw [if_pos hempty]
      exact hr.tail_eq_head_iff.1 hempty
    . rw [if_neg hempty]
      exact ⟨rfl, fun hq => hempty (hr.tail_eq_head_iff.2 hq)⟩
  | readSlot head =>
    have hhead : head = r.head := hpc.1
    cases q with
    | nil => exact absurd rfl hpc.2
    | cons x rest =>
      refine ⟨rest, ?_⟩
      rw [hhead, hr.first]

theorem Holds.pending (hr : r.Holds h q) {n : Nat} (hn : n ≤ q.length)
    : r.pending (.loadHead ((h + n) % 2 ^ 64)) = .ret n := by
  unfold SPSCEventRing.pending
  dsimp only
  rw [hr.sub_head hn]

theorem Holds.head_add (hr : r.Holds h q) (n : Nat) : Wrap.add (2 ^ 64) r.head n = (h + n) % 2 ^ 64 := by
  rw [hr.head, Wrap.add_mod]

theorem Holds.pending_knows (hr : r.Holds h q) {pc : PendingPc} (hpc : pc.Knows r q)
    : match r.pending pc with
      | .next pc' => pc' = .loadHead r.tail ∧ pc'.Knows r q
      | .ret pending => pending ≤ q.length ∧ pc = .loadHead (Wrap.add (2 ^ 64) r.head pending) := by
  cases pc with
  | loadTail => exact ⟨rfl, q.length, Nat.le_refl _, by rw [hr.head_add, hr.tail]⟩
  | loadHead tail =>
    cases hpc with
    | intro m hm =>
      rw [hm.2, hr.head_add, hr.pending hm.1]
      exact ⟨hm.1, by rw [hr.head_add]⟩

theorem PushPc.Knows.frame {pc : PushPc} (hpc : pc.Knows r q ev) (hcap : r'.capacity = r.capacity)
    (htail : r'.tail = r.tail) (hslots : r'.slots = r.slots) (hlen : q'.length ≤ q.length)
    : pc.Knows r' q' ev := by
  have hslot : r'.slot = r.slot := by
    funext pos
    unfold slot
    rw [hcap]
  cases pc with
  | loadTail => trivial
  | loadHead tail =>
    show tail = r'.tail
    rw [htail]
    exact hpc
  | writeSlot tail =>
    refine ⟨hpc.1.trans htail.symm, ?_⟩
    have hroom := hpc.2
    omega
  | storeTail tail =>
    refine ⟨hpc.1.trans htail.symm, ?_, ?_⟩
    . have hroom := hpc.2.1
      omega
    . rw [hslots, hslot]
      exact hpc.2.2

theorem PopPc.Knows.frame {pc : PopPc α} (hpc : pc.Knows r q) (hhead : r'.head = r.head) (evs : List α)
    : pc.Knows r' (q ++ evs) := by
  cases pc with
  | loadHead => trivial
  | loadTail head => exact Eq.trans hpc hhead.symm
  | readSlot head =>
    refine ⟨hpc.1.trans hhead.symm, ?_⟩
    intro hnil
    exact hpc.2 (List.append_eq_nil_iff.1 hnil).1
  | storeHead head ev =>
    refine ⟨hpc.1.trans hhead.symm, ?_⟩
    cases hpc.2 with
    | intro rest hq => exact ⟨rest ++ evs, by rw [hq, List.cons_append]⟩

theorem PeekPc.Knows.frame {pc : PeekPc} (hpc : pc.Knows r q) (hhead : r'.head = r.head) (evs : List α)
    : pc.Knows r' (q ++ evs) := by
  cases pc with
  | loadHead => trivial
  | loadTail head => exact Eq.trans hpc hhead.symm
  | readSlot head =>
    refine ⟨hpc.1.trans hhead.symm, ?_⟩
    intro hnil
    exact hpc.2 (List.append_eq_nil_iff.1 hnil).1

theorem getElem_contents (j : Nat) (hj : j < r.contents.length)
    : r.contents[j] = r.slots (r.slot (Wrap.add (2 ^ 64) r.head j)) := by
  simp only [SPSCEventRing.contents, List.getElem_map, List.getElem_range]

theorem length_contents : r.contents.length = Wrap.sub (2 ^ 64) r.tail r.head := by
  simp only [SPSCEventRing.contents, List.length_map, List.length_range]

theorem Holds.contents (hr : r.Holds h q) : r.contents = q := by
  have hsub := hr.sub_head (Nat.le_refl q.length)
  rw [← hr.tail] at hsub
  apply List.ext_getElem
  . rw [length_contents, hsub]
  . intro j hj hq
    rw [getElem_contents, hr.head, Wrap.add_mod, hr.slot_mod]
    exact hr.content j hq

theorem Valid.holds (hr : r.Valid) : r.Holds r.head r.contents := by
  have hcap := hr.cap
  have hhead := hr.head
  have htail := hr.tail
  constructor
  . exact hr.cap
  . exact (Nat.mod_eq_of_lt hhead).symm
  . rw [length_contents]
    unfold Wrap.sub
    rw [Nat.add_mod_mod, Nat.mod_eq_of_lt hhead]
    omega
  . rw [length_contents]
    exact hr.fits
  . intro j hj
    cases hcap with
    | intro k hk =>
      rw [getElem_contents, slot, Wrap.add, hk.2, Wrap.mod_and_mask]
      exact Nat.pow_dvd_pow 2 (by omega)

end SPSCEventRing

end NebulaXTrader
