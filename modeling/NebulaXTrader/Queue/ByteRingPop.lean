import NebulaXTrader.Queue.UnreadBytes

/-!
This module contains the copying read of `SPSCByteRing`, which acquires a second time before it releases, and
therefore reads the front of the ring twice.
-/

namespace NebulaXTrader

namespace SPSCByteRing

/--
The ring afterwards, the number that is returned, and what has been copied to the buffer of the caller.
-/
def pop (r : SPSCByteRing) (len : Nat) : SPSCByteRing × Nat × List UInt8 :=
  let first := r.readAcquire len
  let n1 := first.length
  if n1 = 0 then
    (r, 0, [])
  else if n1 = len then
    (r.readRelease n1, n1, first)
  else
    let remaining := len - n1
    let second := r.readAcquire remaining
    if second.length < remaining then
      (r, 0, first)
    else
      (r.readRelease len, len, first ++ second)

/--
A read of what is there takes it from the front, a read of more leaves everything.
-/
structure PopsExactly (r : SPSCByteRing) (unread : List UInt8) (len : Nat) : Prop where
  all : len ≤ unread.length → r.pop len = (r.readRelease len, len, unread.take len)
  keep : unread.length < len → (r.pop len).1 = r

/--
The bytes wanted do not reach the physical end, or those behind it are the same as those at the front. Of a read of
more than is there, twice what is in one piece must be too little.
-/
def ReadsOnce (capacity head : Nat) (unread : List UInt8) (len : Nat) : Prop :=
  let contig := capacity - head % capacity
  if len ≤ unread.length then
    len ≤ contig ∨
      len ≤ 2 * contig ∧ unread.take (len - contig) = (unread.drop contig).take (len - contig)
  else
    unread = [] ∨ 2 * min unread.length contig < len

instance (capacity head : Nat) (unread : List UInt8) (len : Nat) : Decidable (ReadsOnce capacity head unread len) := by
  unfold ReadsOnce
  infer_instance

variable {k : Nat} {r : SPSCByteRing} {unread : List UInt8} {len : Nat}

/--
The unread bytes stand one behind the other from the head on.
-/
structure Unread (k : Nat) (r : SPSCByteRing) (unread : List UInt8) : Prop where
  capacity : r.capacity = 2 ^ k
  tail : r.tail = r.head + unread.length
  room : unread.length ≤ 2 ^ k
  tail_lt : r.tail < 2 ^ 64
  stored : Cells.stream r.buf (2 ^ k) r.head unread.length = unread

theorem Inv.stored {s : Shared} (h : Inv k s) (hunread : (contents s.log).drop s.ring.head = unread.map some)
    : Unread k s.ring unread := by
  have horder := h.order
  have hroom := h.room
  have hlen := congrArg List.length hunread
  rw [List.length_drop, List.length_map, h.published] at hlen
  refine ⟨h.capacity, by omega, by omega, h.tail_lt, ?_⟩
  apply List.ext_getElem
  . simp
  . intro i _ hi
    have hread : (contents s.log)[s.ring.head + i]? = some (some unread[i]) := by
      rw [← List.getElem?_drop, hunread, List.getElem?_map, List.getElem?_eq_getElem hi, Option.map_some]
    have hcell := h.readable (s.ring.head + i) unread[i] (by omega) hread
    simp only [Cells.stream, List.getElem_map, List.getElem_range]
    exact hcell

theorem Unread.readAcquire (h : Unread k r unread) (hk : k < 64) (request : Nat)
    : r.readAcquire request = unread.take (min request (2 ^ k - r.head % 2 ^ k)) := by
  have hcap := capacity_le hk
  have htail := h.tail
  have hroom := h.room
  have hlt := h.tail_lt
  have hpos := Nat.mod_lt r.head (capacity_pos (k := k))
  have hhead : r.head % 2 ^ 64 = r.head := Nat.mod_eq_of_lt (by omega)
  have hacquire := @acquire_eq k hk r.head r.tail request (by omega) (by omega)
  have hposition := pos_eq hk r.head
  rw [hhead, Nat.mod_eq_of_lt hlt] at hacquire
  rw [hhead] at hposition
  have hused : r.tail - r.head = unread.length := by omega
  unfold SPSCByteRing.readAcquire
  rw [h.capacity, hacquire, hposition, hused, Cells.read_eq_stream _ (by omega)]
  have htake := @Cells.take_stream UInt8 r.buf (2 ^ k) r.head
    (min (min request unread.length) (2 ^ k - r.head % 2 ^ k)) unread.length (by omega)
  rw [h.stored] at htake
  rw [← htake]
  apply List.take_eq_take_iff.2
  omega

theorem Unread.pop (h : Unread k r unread) (hk : k < 64) (hlen : 1 ≤ len)
    : let contig := 2 ^ k - r.head % 2 ^ k
      r.pop len =
        if unread = [] then
          (r, 0, [])
        else if len ≤ unread.length ∧ len ≤ contig then
          (r.readRelease len, len, unread.take len)
        else if 2 * min unread.length contig < len then
          (r, 0, unread.take contig)
        else
          (r.readRelease len, len, unread.take contig ++ unread.take (len - min unread.length contig)) := by
  intro contig
  have hpos := Nat.mod_lt r.head (capacity_pos (k := k))
  have hfirst := h.readAcquire hk len
  have hsecond := h.readAcquire hk (len - min (min len contig) unread.length)
  have hcontig : 0 < contig := by omega
  unfold SPSCByteRing.pop
  dsimp only
  rw [hfirst, List.length_take, hsecond, List.length_take]
  by_cases hnil : unread = []
  . rw [if_pos hnil, if_pos (by rw [hnil]; simp)]
  . have hne : unread.length ≠ 0 := fun hzero => hnil (List.eq_nil_of_length_eq_zero hzero)
    rw [if_neg hnil, if_neg (by omega)]
    by_cases hone : len ≤ unread.length ∧ len ≤ contig
    . rw [if_pos hone, if_pos (by omega)]
      have hall : min len contig = len := by omega
      have hcount : min (min len contig) unread.length = len := by omega
      rw [hcount, hall]
    . have hcount : min (min len contig) unread.length = min unread.length contig := by omega
      have hfront : unread.take (min len contig) = unread.take contig := by
        apply List.take_eq_take_iff.2
        omega
      rw [if_neg hone, hcount, if_neg (by omega), hfront]
      by_cases htwice : 2 * min unread.length contig < len
      . rw [if_pos htwice, if_pos (by omega)]
      . rw [if_neg htwice, if_neg (by omega)]
        have hrest : min (len - min unread.length contig) contig = len - min unread.length contig := by omega
        rw [hrest]

theorem pop_all_iff (h : Unread k r unread) (hk : k < 64) (hlen : 1 ≤ len) (hall : len ≤ unread.length)
    : let contig := 2 ^ k - r.head % 2 ^ k
      r.pop len = (r.readRelease len, len, unread.take len) ↔
        len ≤ contig ∨ len ≤ 2 * contig ∧ unread.take (len - contig) = (unread.drop contig).take (len - contig) := by
  intro contig
  have hpop := h.pop hk hlen
  have hnil : unread ≠ [] := by
    intro hnil
    rw [hnil] at hall
    have hzero : len ≤ 0 := hall
    omega
  dsimp only at hpop
  rw [if_neg hnil] at hpop
  by_cases hone : len ≤ contig
  . rw [hpop, if_pos ⟨hall, hone⟩]
    exact ⟨fun _ => Or.inl hone, fun _ => rfl⟩
  . have hmin : min unread.length contig = contig := by omega
    rw [if_neg (fun h => hone h.2)] at hpop
    have hread : r.pop len = if 2 * contig < len then (r, 0, unread.take contig)
        else (r.readRelease len, len, unread.take contig ++ unread.take (len - contig)) := by
      rw [hpop]
      show (if 2 * min unread.length contig < len then _ else _) = _
      rw [hmin]
    rw [hread]
    by_cases htwice : 2 * contig < len
    . rw [if_pos htwice]
      constructor
      . intro heq
        have hzero : 0 = len := congrArg (fun x => x.2.1) heq
        omega
      . intro hcases
        omega
    . rw [if_neg htwice]
      have hsum : len = contig + (len - contig) := by omega
      have hsplit : unread.take len = unread.take contig ++ (unread.drop contig).take (len - contig) := by
        conv => lhs; rw [hsum, List.take_add]
      rw [hsplit]
      constructor
      . intro heq
        have hread := congrArg (fun x => x.2.2) heq
        exact Or.inr ⟨by omega, List.append_cancel_left hread⟩
      . intro hcases
        cases hcases with
        | inl hle => exact absurd hle hone
        | inr hsame => rw [hsame.2]

theorem pop_keep_iff (h : Unread k r unread) (hk : k < 64) (hlen' : len < 2 ^ 64) (hmore : unread.length < len)
    : (r.pop len).1 = r ↔ unread = [] ∨ 2 * min unread.length (2 ^ k - r.head % 2 ^ k) < len := by
  have hpos : 1 ≤ len := by omega
  have hpop := h.pop hk hpos
  dsimp only at hpop
  rw [hpop]
  by_cases hnil : unread = []
  . rw [if_pos hnil]
    exact ⟨fun _ => Or.inl hnil, fun _ => rfl⟩
  . rw [if_neg hnil, if_neg (fun h => absurd h.1 (Nat.not_le.2 hmore))]
    by_cases htwice : 2 * min unread.length (2 ^ k - r.head % 2 ^ k) < len
    . rw [if_pos htwice]
      exact ⟨fun _ => Or.inr htwice, fun _ => rfl⟩
    . rw [if_neg htwice]
      constructor
      . intro heq
        have hhead : (r.head + len) % 2 ^ 64 = r.head := congrArg SPSCByteRing.head heq
        have htail := h.tail
        have hlt := h.tail_lt
        omega
      . intro hcases
        exact absurd hcases (not_or.2 ⟨hnil, htwice⟩)

/--
In every state that pushes and releases lead to and in which no hole lies between the two positions, the copying read
is right exactly if it does not see the front of the ring twice, or does not show it.
-/
theorem popsExactly_iff (hk : k < 64) (buf : Nat → UInt8) (as : List Access) (s : Shared)
    (hlow : Run.Along Shared.step Shared.Low (Shared.init (2 ^ k) buf) as)
    (hrun : Run.exec Shared.step (Shared.init (2 ^ k) buf) as = some s) (unread : List UInt8)
    (hunread : (contents s.log).drop s.ring.head = unread.map some) (len : Nat) (hlen : 1 ≤ len)
    (hlen' : len < 2 ^ 64) : PopsExactly s.ring unread len ↔ ReadsOnce (2 ^ k) s.ring.head unread len := by
  have hinv := Inv.run hk buf hlow hrun
  have h := hinv.stored hunread
  unfold ReadsOnce
  dsimp only
  by_cases hall : len ≤ unread.length
  . have hiff := pop_all_iff h hk hlen hall
    dsimp only at hiff
    rw [if_pos hall, ← hiff]
    exact ⟨fun hexact => hexact.all hall, fun heq => ⟨fun _ => heq, fun hlt => absurd hall (Nat.not_le.2 hlt)⟩⟩
  . have hmore := Nat.lt_of_not_le hall
    rw [if_neg hall, ← pop_keep_iff h hk hlen' hmore]
    exact ⟨fun hexact => hexact.keep hmore, fun heq => ⟨fun hle => absurd hle hall, fun _ => heq⟩⟩

/--
A message that crosses the physical end behind its twelfth byte.
-/
def twelveAndOne : List Access := [.call (List.replicate 20 0), .copy, .publish, .release 20,
  .call [1, 2, 3, 4, 5, 6, 7, 8, 9, 10, 11, 12, 13], .copy, .copy, .copy, .publish]

/--
A read that stops at the physical end is right, and the one that crosses it is right exactly if the condition holds.
-/
theorem pop_crossing
    : ∃ s, Run.exec Shared.step (Shared.init (2 ^ 5) (fun _ => 0)) twelveAndOne = some s ∧
        (contents s.log).drop s.ring.head = [1, 2, 3, 4, 5, 6, 7, 8, 9, 10, 11, 12, 13].map some ∧
        PopsExactly s.ring [1, 2, 3, 4, 5, 6, 7, 8, 9, 10, 11, 12, 13] 12 ∧
        (PopsExactly s.ring [1, 2, 3, 4, 5, 6, 7, 8, 9, 10, 11, 12, 13] 13 ↔
          ReadsOnce (2 ^ 5) s.ring.head [1, 2, 3, 4, 5, 6, 7, 8, 9, 10, 11, 12, 13] 13) := by
  refine ⟨_, rfl, by decide, ?_, ?_⟩
  . apply (popsExactly_iff (k := 5) (by decide) (fun _ => 0) twelveAndOne _ (by decide) rfl _ (by decide) 12 (by decide)
      (by decide)).2
    decide
  . exact popsExactly_iff (k := 5) (by decide) (fun _ => 0) twelveAndOne _ (by decide) rfl _ (by decide) 13 (by decide)
      (by decide)

theorem pop_twelveAndOne
    : Run.Along Shared.step Shared.Low (Shared.init (2 ^ 5) (fun _ => 0)) twelveAndOne ∧
        ∃ s, Run.exec Shared.step (Shared.init (2 ^ 5) (fun _ => 0)) twelveAndOne = some s ∧
          (contents s.log).drop s.ring.head = [1, 2, 3, 4, 5, 6, 7, 8, 9, 10, 11, 12, 13].map some ∧
          (s.ring.pop 13).2 = (13, [1, 2, 3, 4, 5, 6, 7, 8, 9, 10, 11, 12, 1]) ∧
          ¬ PopsExactly s.ring [1, 2, 3, 4, 5, 6, 7, 8, 9, 10, 11, 12, 13] 13 := by
  refine ⟨by decide, _, rfl, by decide, by decide, ?_⟩
  intro hexact
  have hpop := congrArg (fun x => x.2.2) (hexact.all (by decide))
  exact absurd hpop (by decide)

end SPSCByteRing

end NebulaXTrader
