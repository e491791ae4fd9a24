import NebulaXTrader.Queue.Lemmas.SPMCEventQueue

/-!
This module contains the lemmas about one access of a push or a pop, given what the call knows and what the consumers
of the queue have still to read.
-/

namespace NebulaXTrader

open SPSCEventRing (Progress)

namespace SPMCEventQueue

variable {α : Type}

def PushPc.Knows (pc : PushPc) (q : SPMCEventQueue α) (ev : α) : Prop :=
  match pc with
  | .minConsumed tail i minHead => tail = q.tail ∧ ∀ j, j < i → j < q.numConsumers → minHead ≤ q.heads j
  | .writeSlot tail => tail = q.tail ∧ ∀ j, j < q.numConsumers → tail < (q.locals j).head + q.capacity
  | .storeTail tail =>
    tail = q.tail ∧ (∀ j, j < q.numConsumers → tail < (q.locals j).head + q.capacity) ∧ q.slots (q.slot tail) = ev
  | _ => True

def PopPc.Knows (pc : PopPc α) (head : Nat) (l : List α) : Prop :=
  match pc with
  | .readSlot tail => head < tail ∧ tail ≤ l.length
  | .storeHead _ ev => l[head]? = some ev
  | _ => True

/--
The events of `l` have been pushed to the queue.
-/
structure Holds (q : SPMCEventQueue α) (l : List α) : Prop where
  cap : ∃ n, n < 64 ∧ q.capacity = 2 ^ n
  tail : q.tail = l.length
  lt : l.length < 2 ^ 64

/--
Consumer `i` has received `r`, and what it has not received is still in the slots.
-/
structure Follows (q : SPMCEventQueue α) (i : Nat) (l r : List α) : Prop where
  published : q.heads i ≤ (q.locals i).head
  popped : (q.locals i).head ≤ l.length
  fits : l.length ≤ (q.locals i).head + q.capacity
  content : ∀ p, (q.locals i).head ≤ p → p < l.length → l[p]? = some (q.slots (q.slot p))
  received : r = l.take (q.locals i).head

variable {q q' : SPMCEventQueue α} {i : Nat} {l r : List α}

theorem Holds.slot_eq (h : q.Holds l) (p : Nat) : q.slot p = p % q.capacity := by
  obtain ⟨n, _, hcap⟩ := h.cap
  unfold slot
  rw [hcap, Nat.and_two_pow_sub_one_eq_mod]

theorem Holds.hasRoom_iff (h : q.Holds l) {minHead : Nat} (hle : minHead ≤ q.tail)
    : q.hasRoom q.tail minHead = true ↔ q.tail < minHead + q.capacity := by
  have hlt : q.tail < 2 ^ 64 := by
    rw [h.tail]
    exact h.lt
  unfold hasRoom
  rw [Wrap.sub_eq_of_le hle hlt, decide_eq_true_iff]
  omega

theorem minFrom_le_start (heads : Nat → Nat) (i n m : Nat) : minFrom heads i n m ≤ m := by
  induction n generalizing i m with
  | zero => exact Nat.le_refl m
  | succ n ih =>
    unfold minFrom
    have hle := ih (i + 1) (if heads i < m then heads i else m)
    split at hle
    . next hlt =>
      rw [if_pos hlt]
      omega
    . next hge =>
      rw [if_neg hge]
      exact hle

theorem minFrom_le (heads : Nat → Nat) {i n j : Nat} (m : Nat) (hi : i ≤ j) (hj : j < i + n)
    : minFrom heads i n m ≤ heads j := by
  induction n generalizing i m with
  | zero => omega
  | succ n ih =>
    unfold minFrom
    by_cases heq : i = j
    . have hle := minFrom_le_start heads (i + 1) n (if heads i < m then heads i else m)
      subst heq
      split at hle
      . next hlt =>
        rw [if_pos hlt]
        exact hle
      . next hge =>
        rw [if_neg hge]
        omega
    . exact ih _ (by omega) (by omega)

theorem minConsumed_le (q : SPMCEventQueue α) {j : Nat} (hj : j < q.numConsumers) : q.minConsumed ≤ q.heads j := by
  apply minFrom_le
  . exact Nat.zero_le j
  . omega

theorem Holds.room (h : q.Holds l) {minHead : Nat} (hroom : q.hasRoom q.tail minHead = true)
    (hmin : minHead ≤ q.heads i) (hi : q.Follows i l r) : q.tail < (q.locals i).head + q.capacity := by
  have hpublished := hi.published
  have hpopped := hi.popped
  rw [← h.tail] at hpopped
  have hlt := (h.hasRoom_iff (by omega)).1 hroom
  omega

/--
The first test of a push, which trusts the cached minimum, finds no room where the own minimum of the queue has none,
and fewer than `2 ^ 64` events are pushed.
-/
def CarefulPush (q : SPMCEventQueue α) (cachedMinHead : Nat) (pc : PushPc) : Prop :=
  match pc with
  | .loadTail => q.hasRoom q.tail cachedMinHead = true → q.hasRoom q.tail q.minConsumed = true
  | .storeTail tail => tail + 1 < 2 ^ 64
  | _ => True

instance (q : SPMCEventQueue α) (cachedMinHead : Nat) (pc : PushPc) : Decidable (q.CarefulPush cachedMinHead pc) :=
  match pc with
  | .loadTail => inferInstanceAs (Decidable (_ → _))
  | .storeTail _ => inferInstanceAs (Decidable (_ < _))
  | .minConsumed .. | .writeSlot _ | .loadBlocked | .notify .. => inferInstanceAs (Decidable True)

structure Delivers (q : SPMCEventQueue α) (l : List α) (received : Nat → List α) : Prop where
  holds : q.Holds l
  follows : ∀ i, i < q.numConsumers → q.Follows i l (received i)

theorem Follows.congr (h : q.Follows i l r) (hheads : q'.heads i = q.heads i) (hlocals : q'.locals i = q.locals i)
    (hcap : q'.capacity = q.capacity) (hslots : q'.slots = q.slots) : q'.Follows i l r := by
  have hslot : q'.slot = q.slot := by
    funext p
    unfold slot
    rw [hcap]
  refine ⟨?_, ?_, ?_, ?_, ?_⟩
  . rw [hheads, hlocals]
    exact h.published
  . rw [hlocals]
    exact h.popped
  . rw [hlocals, hcap]
    exact h.fits
  . rw [hlocals, hslots, hslot]
    exact h.content
  . rw [hlocals]
    exact h.received

theorem Follows.write (h : q.Follows i l r) (hl : q.Holds l) (hroom : q.tail < (q.locals i).head + q.capacity) (ev : α)
    : Follows { q with slots := Function.update q.slots (q.slot q.tail) ev } i l r := by
  -- The slot behind the tail holds nothing that consumer `i` has still to read.
  refine ⟨h.published, h.popped, h.fits, ?_, h.received⟩
  intro p hp hlt
  have hne : q.slot p ≠ q.slot q.tail := by
    rw [hl.slot_eq, hl.slot_eq]
    intro heq
    have htail := hl.tail
    have hp : (q.locals i).head ≤ p := hp
    have hsame := Wrap.eq_of_mod_eq (W := q.capacity) (by omega) (by omega) heq.symm
    omega
  show l[p]? = some (Function.update q.slots (q.slot q.tail) ev (q.slot p))
  rw [Function.update_of_ne hne]
  exact h.content p hp hlt

theorem Follows.append {ev : α} (h : q.Follows i l r) (hl : q.Holds l)
    (hroom : q.tail < (q.locals i).head + q.capacity) (hev : q.slots (q.slot q.tail) = ev) (tail : Nat)
    : Follows { q with tail := tail } i (l ++ [ev]) r := by
  have hpopped := h.popped
  have htail := hl.tail
  refine ⟨h.published, ?_, ?_, ?_, ?_⟩
  . rw [List.length_append]
    exact Nat.le_add_right_of_le hpopped
  . rw [List.length_append, List.length_singleton, ← htail]
    exact hroom
  . intro p hp hlt
    show (l ++ [ev])[p]? = some (q.slots (q.slot p))
    rw [List.length_append, List.length_singleton] at hlt
    by_cases heq : p = l.length
    . rw [heq, List.getElem?_concat_length, ← htail, hev]
    . rw [List.getElem?_append_left (by omega)]
      exact h.content p hp (by omega)
  . show r = (l ++ [ev]).take (q.locals i).head
    rw [List.take_append_of_le_length hpopped]
    exact h.received

theorem Delivers.write {received : Nat → List α} (h : q.Delivers l received)
    (hroom : ∀ j, j < q.numConsumers → q.tail < (q.locals j).head + q.capacity) (ev : α)
    : Delivers { q with slots := Function.update q.slots (q.slot q.tail) ev } l received := by
  have hl := h.holds
  constructor
  . exact ⟨hl.cap, hl.tail, hl.lt⟩
  . intro i hi
    exact (h.follows i hi).write hl (hroom i hi) ev

theorem Delivers.publish {received : Nat → List α} {ev : α} (h : q.Delivers l received)
    (hroom : ∀ j, j < q.numConsumers → q.tail < (q.locals j).head + q.capacity)
    (hev : q.slots (q.slot q.tail) = ev) (hlt : q.tail + 1 < 2 ^ 64)
    : Delivers { q with tail := Wrap.add (2 ^ 64) q.tail 1 } (l ++ [ev]) received := by
  have hl := h.holds
  constructor
  . refine ⟨hl.cap, ?_, ?_⟩
    . show Wrap.add (2 ^ 64) q.tail 1 = (l ++ [ev]).length
      rw [Wrap.add_eq_of_lt hlt, hl.tail, List.length_append]
      rfl
    . rw [List.length_append, ← hl.tail]
      exact hlt
  . intro i hi
    exact (h.follows i hi).append hl (hroom i hi) hev _

theorem PushPc.Knows.scan {tail minHead : Nat} {ev : α} (h : (PushPc.minConsumed tail i minHead).Knows q ev)
    : (PushPc.minConsumed tail (i + 1) (if q.heads i < minHead then q.heads i else minHead)).Knows q ev := by
  refine ⟨h.1, ?_⟩
  intro j hj hn
  by_cases heq : j = i
  . rw [heq]
    split
    . exact Nat.le_refl _
    . omega
  . have hle := h.2 j (by omega) hn
    split
    . omega
    . exact hle

theorem Delivers.push {received : Nat → List α} {cache : Nat} {ev : α} {pc : PushPc} (h : q.Delivers l received)
    (hpc : pc.Knows q ev) (hcareful : q.CarefulPush cache pc)
    : (q.push cache ev pc).1.Delivers (l ++ Broadcast.stored ev pc) received ∧
      ∀ pc', (q.push cache ev pc).2.2 = .next pc' → pc'.Knows (q.push cache ev pc).1 ev := by
  have hl := h.holds
  have hsame : q.Delivers (l ++ []) received := by
    rw [List.append_nil]
    exact h
  unfold SPMCEventQueue.push
  cases pc with
  | loadTail =>
    dsimp only
    split
    . next hroom =>
      refine ⟨hsame, ?_⟩
      intro pc' hnext
      cases hnext
      refine ⟨rfl, ?_⟩
      intro j hj
      exact hl.room (hcareful hroom) (q.minConsumed_le hj) (h.follows j hj)
    . refine ⟨hsame, ?_⟩
      intro pc' hnext
      cases hnext
      exact ⟨rfl, fun j hj _ => absurd hj (Nat.not_lt_zero j)⟩
  | minConsumed tail i minHead =>
    obtain ⟨htail, hmin⟩ := hpc
    dsimp only
    split
    . next hi =>
      refine ⟨hsame, ?_⟩
      intro pc' hnext
      cases hnext
      exact PushPc.Knows.scan ⟨htail, hmin⟩
    . next hi =>
      split
      . next hroom =>
        refine ⟨hsame, ?_⟩
        intro pc' hnext
        cases hnext
        refine ⟨htail, ?_⟩
        intro j hj
        dsimp only at hj ⊢
        rw [htail] at hroom ⊢
        exact hl.room hroom (hmin j (by omega) hj) (h.follows j hj)
      . refine ⟨hsame, ?_⟩
        intro pc' hnext
        cases hnext
  | writeSlot tail =>
    obtain ⟨htail, hroom⟩ := hpc
    subst htail
    have hstored : l ++ Broadcast.stored ev (.writeSlot q.tail) = l := List.append_nil l
    rw [hstored]
    constructor
    . exact h.write hroom ev
    . intro pc' hnext
      cases hnext
      exact ⟨rfl, hroom, Function.update_self _ _ _⟩
  | storeTail tail =>
    obtain ⟨htail, hroom, hev⟩ := hpc
    subst htail
    constructor
    . exact h.publish hroom hev hcareful
    . intro pc' hnext
      cases hnext
      trivial
  | loadBlocked =>
    dsimp only
    split
    . exact ⟨hsame, fun pc' hnext => by cases hnext⟩
    . refine ⟨hsame, ?_⟩
      intro pc' hnext
      cases hnext
      trivial
  | notify m i =>
    dsimp only
    split
    . split
      . have hfd : (q.writeFd i).Delivers (l ++ []) received := by
          rw [List.append_nil]
          exact ⟨⟨hl.cap, hl.tail, hl.lt⟩, fun j hj => (h.follows j hj).congr rfl rfl rfl rfl⟩
        refine ⟨hfd, ?_⟩
        intro pc' hnext
        cases hnext
        trivial
      . refine ⟨hsame, ?_⟩
        intro pc' hnext
        cases hnext
        trivial
    . exact ⟨hsame, fun pc' hnext => by cases hnext⟩

theorem PushPc.Knows.changedBy {pc : PushPc} {ev : α} (h : pc.Knows q ev) (hq : q.ChangedBy i q')
    (hheads : q.heads i ≤ q'.heads i) (hhead : (q.locals i).head ≤ (q'.locals i).head) : pc.Knows q' ev := by
  have hpublished : ∀ j, q.heads j ≤ q'.heads j := by
    intro j
    by_cases heq : j = i
    . rw [heq]
      exact hheads
    . exact le_of_eq (hq.heads j heq).symm
  have hpopped : ∀ j, (q.locals j).head ≤ (q'.locals j).head := by
    intro j
    by_cases heq : j = i
    . rw [heq]
      exact hhead
    . rw [hq.locals j heq]
  have hroom : ∀ {tail}, (∀ j, j < q.numConsumers → tail < (q.locals j).head + q.capacity) →
      ∀ j, j < q'.numConsumers → tail < (q'.locals j).head + q'.capacity := by
    intro tail h j hj
    rw [hq.numConsumers] at hj
    rw [hq.capacity]
    have hlt := h j hj
    have hle := hpopped j
    omega
  cases pc with
  | loadTail => trivial
  | minConsumed tail n minHead =>
    refine ⟨h.1.trans hq.tail.symm, ?_⟩
    intro j hj hn
    rw [hq.numConsumers] at hn
    exact Nat.le_trans (h.2 j hj hn) (hpublished j)
  | writeSlot tail => exact ⟨h.1.trans hq.tail.symm, hroom h.2⟩
  | storeTail tail =>
    refine ⟨h.1.trans hq.tail.symm, hroom h.2.1, ?_⟩
    unfold slot
    rw [hq.slots, hq.capacity]
    exact h.2.2
  | loadBlocked => trivial
  | notify m n => trivial

theorem Follows.flush (h : q.Follows i l r) : (q.progressFlush i).Follows i l r := by
  have hhead := q.progressFlush_head i i
  refine ⟨?_, ?_, ?_, ?_, ?_⟩
  . rw [progressFlush_heads_self, hhead]
  . rw [hhead]
    exact h.popped
  . rw [hhead]
    exact h.fits
  . rw [hhead]
    exact h.content
  . rw [hhead]
    exact h.received

theorem Follows.advance {ev : α} (h : q.Follows i l r) (hev : l[(q.locals i).head]? = some ev)
    (hheads : q'.heads i = q.heads i) (hhead : (q'.locals i).head = (q.locals i).head + 1)
    (hcap : q'.capacity = q.capacity) (hslots : q'.slots = q.slots) : q'.Follows i l (r ++ [ev]) := by
  have hlt : (q.locals i).head < l.length := by
    obtain ⟨hlt, _⟩ := List.getElem?_eq_some_iff.1 hev
    exact hlt
  have hslot : q'.slot = q.slot := by
    funext p
    unfold slot
    rw [hcap]
  have hpublished := h.published
  have hfits := h.fits
  refine ⟨?_, ?_, ?_, ?_, ?_⟩
  . omega
  . omega
  . omega
  . intro p hp hp'
    rw [hslots, hslot]
    exact h.content p (by omega) hp'
  . rw [hhead, List.take_add_one, hev, ← h.received]
    rfl

theorem Follows.pop {pc : PopPc α} (h : q.Follows i l r) (hl : q.Holds l) (hpc : pc.Knows (q.locals i).head l)
    : (q.pop i pc).1.Follows i l (r ++ Broadcast.popped pc) ∧
      q.heads i ≤ (q.pop i pc).1.heads i ∧ (q.locals i).head ≤ ((q.pop i pc).1.locals i).head ∧
      ∀ pc', (q.pop i pc).2 = .next pc' → pc'.Knows ((q.pop i pc).1.locals i).head l := by
  have hsame : q.Follows i l (r ++ []) := by
    rw [List.append_nil]
    exact h
  unfold SPMCEventQueue.pop
  cases pc with
  | loadTail =>
    dsimp only
    split
    . refine ⟨hsame, Nat.le_refl _, Nat.le_refl _, ?_⟩
      intro pc' hnext
      cases hnext
      trivial
    . next hne =>
      refine ⟨hsame, Nat.le_refl _, Nat.le_refl _, ?_⟩
      intro pc' hnext
      cases hnext
      have hlt : (q.locals i).head < q.tail := by
        have hpopped := h.popped
        have htail := hl.tail
        omega
      exact ⟨hlt, le_of_eq hl.tail⟩
  | readSlot tail =>
    refine ⟨hsame, Nat.le_refl _, Nat.le_refl _, ?_⟩
    intro pc' hnext
    cases hnext
    exact h.content _ (Nat.le_refl _) (Nat.lt_of_lt_of_le hpc.1 hpc.2)
  | storeHead tail ev =>
    have hev : l[(q.locals i).head]? = some ev := hpc
    have hadd : Wrap.add (2 ^ 64) (q.locals i).head 1 = (q.locals i).head + 1 := by
      obtain ⟨hlt, _⟩ := List.getElem?_eq_some_iff.1 hev
      have hmax := hl.lt
      apply Wrap.add_eq_of_lt
      omega
    have hself : ∀ n, (Function.update q.locals i ⟨(q.locals i).head + 1, n⟩ i).head = (q.locals i).head + 1 := by
      intro n
      rw [Function.update_self]
    have hfollows : ∀ n, Follows { q with locals := Function.update q.locals i ⟨(q.locals i).head + 1, n⟩ } i l
        (r ++ [ev]) := by
      intro n
      exact h.advance hev rfl (hself n) rfl rfl
    have hgrows : ∀ n, (q.locals i).head ≤ (Function.update q.locals i ⟨(q.locals i).head + 1, n⟩ i).head := by
      intro n
      rw [hself]
      exact Nat.le_succ _
    dsimp only
    rw [hadd]
    split
    . refine ⟨hfollows _, Nat.le_refl _, hgrows _, ?_⟩
      intro pc' hnext
      cases hnext
      trivial
    . refine ⟨hfollows _, Nat.le_refl _, hgrows _, ?_⟩
      intro pc' hnext
      cases hnext
  | flush ev =>
    have hpopped : r ++ Broadcast.popped (.flush ev) = r := List.append_nil r
    dsimp only
    rw [hpopped, progressFlush_heads_self, progressFlush_head]
    refine ⟨h.flush, h.published, Nat.le_refl _, ?_⟩
    intro pc' hnext
    cases hnext

theorem push_keeps (q : SPMCEventQueue α) (cache : Nat) (ev : α) (pc : PushPc)
    : (q.push cache ev pc).1.numConsumers = q.numConsumers ∧ (q.push cache ev pc).1.locals = q.locals ∧
        (q.push cache ev pc).1.heads = q.heads := by
  unfold SPMCEventQueue.push
  cases pc with
  | loadTail =>
    dsimp only
    split
    . exact ⟨rfl, rfl, rfl⟩
    . exact ⟨rfl, rfl, rfl⟩
  | minConsumed tail i minHead =>
    dsimp only
    split
    . exact ⟨rfl, rfl, rfl⟩
    . split
      . exact ⟨rfl, rfl, rfl⟩
      . exact ⟨rfl, rfl, rfl⟩
  | writeSlot tail => exact ⟨rfl, rfl, rfl⟩
  | storeTail tail => exact ⟨rfl, rfl, rfl⟩
  | loadBlocked =>
    dsimp only
    split
    . exact ⟨rfl, rfl, rfl⟩
    . exact ⟨rfl, rfl, rfl⟩
  | notify m i =>
    dsimp only
    split
    . split
      . exact ⟨rfl, rfl, rfl⟩
      . exact ⟨rfl, rfl, rfl⟩
    . exact ⟨rfl, rfl, rfl⟩

theorem waitForData_keeps {pc : WaitPc} {p : Progress WaitPc Bool} (h : q.waitForData i pc = some (q', p))
    : q'.heads = q.heads ∧ q'.locals = q.locals := by
  unfold waitForData at h
  cases pc with
  | register =>
    dsimp only at h
    split at h
    . cases h
      exact ⟨rfl, rfl⟩
    . cases h
      exact ⟨rfl, rfl⟩
  | pending =>
    dsimp only at h
    split at h
    . cases h
      exact ⟨rfl, rfl⟩
    . cases h
      exact ⟨rfl, rfl⟩
  | unregister =>
    cases h
    exact ⟨rfl, rfl⟩
  | poll =>
    dsimp only at h
    split at h
    . cases h
      exact ⟨rfl, rfl⟩
    . cases h
  | woken ret =>
    dsimp only at h
    split at h
    . cases h
      exact ⟨rfl, rfl⟩
    . cases h
      exact ⟨rfl, rfl⟩
  | read =>
    cases h
    exact ⟨rfl, rfl⟩

theorem PopPc.Knows.append {pc : PopPc α} {head : Nat} (h : pc.Knows head l) (evs : List α)
    : pc.Knows head (l ++ evs) := by
  cases pc with
  | loadTail => trivial
  | readSlot tail =>
    refine ⟨h.1, ?_⟩
    rw [List.length_append]
    exact Nat.le_add_right_of_le h.2
  | storeHead tail ev =>
    have hev : l[head]? = some ev := h
    obtain ⟨hlt, _⟩ := List.getElem?_eq_some_iff.1 hev
    show (l ++ evs)[head]? = some ev
    rw [List.getElem?_append_left hlt]
    exact hev
  | flush ev => trivial

end SPMCEventQueue

end NebulaXTrader
