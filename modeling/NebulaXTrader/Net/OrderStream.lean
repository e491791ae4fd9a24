import Mathlib.Data.List.Induction
import NebulaXTrader.Lib.Run
import NebulaXTrader.Net.IoUringSender
import NebulaXTrader.Queue.Lemmas.SPSCByteRing

/-!
This module contains the theorem about the bytes that `IoUringSender` puts on the connection: they are
the messages, one after the other, as long as no message starts so close to the end of the ring that
`push` moves it to the next lap.
-/

namespace NebulaXTrader

def Kernel.SendsSome (kernel : Kernel) : Prop :=
  ∀ i chunk, chunk ≠ [] → ∃ n : Nat, kernel i chunk = .done n ∧ 0 < n ∧ n ≤ chunk.length

namespace IoUringSender

open SPSCByteRing

variable {k : Nat} {kernel : Kernel}

structure At (k : Nat) (s : IoUringSender) (hd tl : Nat) : Prop where
  running : s.running = true
  capacity : s.ring.capacity = 2 ^ k
  head : s.ring.head = hd % 2 ^ 64
  tail : s.ring.tail = tl % 2 ^ 64

theorem readAcquire_eq (hk : k < 64) {s : IoUringSender} {hd tl : Nat} (h : At k s hd tl)
    (hle : hd ≤ tl) (hlt : tl < hd + 2 ^ 64) (request : Nat)
    : s.ring.readAcquire request =
        Cells.stream s.ring.buf (2 ^ k) hd
          (min (min request (tl - hd)) (2 ^ k - hd % 2 ^ k)) := by
  have hpos := Nat.mod_lt hd (capacity_pos (k := k))
  unfold readAcquire
  rw [h.capacity, h.head, h.tail, pos_eq hk, acquire_eq hk request hle hlt]
  apply Cells.read_eq_stream
  omega

theorem sendZcAll_zero (len : Nat) (s : IoUringSender) (rounds : Nat)
    : sendZcAll kernel len s 0 rounds = some ((len : Int), s) := by
  unfold sendZcAll
  exact if_pos rfl

theorem sendZcAll_succ (len : Nat) {s : IoUringSender} {remaining rounds sent : Nat} (hpos : 0 < remaining)
    (hne : s.ring.readAcquire remaining ≠ [])
    (hdone : kernel s.submissions (s.ring.readAcquire remaining) = .done sent) (hsent : 0 < sent)
    : sendZcAll kernel len s remaining (rounds + 1) =
        sendZcAll kernel len { s with
          submissions := s.submissions + 1
          ring := s.ring.readRelease sent
          wire := s.wire ++ (s.ring.readAcquire remaining).take sent } (sub64 remaining sent) rounds := by
  rw [sendZcAll, if_neg (Nat.ne_of_gt hpos)]
  dsimp only
  rw [if_neg hne, hdone]
  dsimp only
  rw [if_pos (Int.natCast_pos.2 hsent), Int.toNat_natCast]

theorem sendZcAll_eq (hk : k < 64) (hkernel : kernel.SendsSome) (len : Nat) {s : IoUringSender}
    {hd tl remaining rounds : Nat} (h : At k s hd tl) (hle : hd + remaining ≤ tl)
    (hroom : tl ≤ hd + 2 ^ k) (hrounds : remaining ≤ rounds)
    : ∃ s', sendZcAll kernel len s remaining rounds = some ((len : Int), s') ∧
        At k s' (hd + remaining) tl ∧
        s'.wire = s.wire ++ Cells.stream s.ring.buf (2 ^ k) hd remaining := by
  -- The loop sends the next bytes of the ring and nothing else, however the kernel cuts them.
  have hcap := capacity_le hk
  induction rounds generalizing s hd remaining with
  | zero =>
    have hzero : remaining = 0 := by omega
    subst hzero
    exact ⟨s, sendZcAll_zero len s 0, h, (List.append_nil _).symm⟩
  | succ rounds ih =>
    by_cases hzero : remaining = 0
    . subst hzero
      exact ⟨s, sendZcAll_zero len s _, h, (List.append_nil _).symm⟩
    . have hpos := Nat.mod_lt hd (capacity_pos (k := k))
      have hchunk := readAcquire_eq hk h (by omega) (by omega) remaining
      generalize hn : min (min remaining (tl - hd)) (2 ^ k - hd % 2 ^ k) = n at hchunk
      have hlen : (s.ring.readAcquire remaining).length = n := by
        rw [hchunk, Cells.length_stream]
      have hne : s.ring.readAcquire remaining ≠ [] := by
        rw [← List.length_pos_iff, hlen]
        omega
      obtain ⟨sent, hdone, hsent, hbound⟩ := hkernel s.submissions _ hne
      rw [hlen] at hbound
      have hrem : sub64 remaining sent = remaining - sent := by
        unfold sub64
        apply Wrap.sub_eq_of_le
        . omega
        . omega
      have h₁ : At k { s with
          submissions := s.submissions + 1
          ring := s.ring.readRelease sent
          wire := s.wire ++ (s.ring.readAcquire remaining).take sent } (hd + sent) tl := by
        refine ⟨h.running, h.capacity, ?_, h.tail⟩
        show add64 s.ring.head sent = _
        rw [h.head, add64_eq]
      obtain ⟨s', hrun, hat, hwire⟩ := @ih _ (hd + sent) (remaining - sent) h₁ (by omega) (by omega) (by omega)
      have hall : hd + sent + (remaining - sent) = hd + remaining := by omega
      rw [hall] at hat
      refine ⟨s', ?_, hat, ?_⟩
      . rw [sendZcAll_succ len (Nat.pos_of_ne_zero hzero) hne hdone hsent, hrem]
        exact hrun
      . rw [hwire, hchunk, Cells.take_stream hbound, List.append_assoc]
        show _ ++ (_ ++ Cells.stream s.ring.buf _ _ _) = _
        rw [← Cells.stream_add, Nat.add_sub_cancel' (by omega)]

/--
The message `m` that is stored from the position `p` on stays in one piece with the bytes before it:
`push` does not move it to the next lap.
-/
def Joins (capacity p : Nat) (m : List UInt8) : Prop :=
  p % capacity + m.length ≤ capacity ∨ kHeaderBytes ≤ capacity - p % capacity

instance (capacity p : Nat) (m : List UInt8) : Decidable (Joins capacity p m) := by
  unfold Joins
  infer_instance

theorem plan_of_joins (hk : k < 64) {p : Nat} {m : List UInt8} {pl : Plan} (hne : m.length ≠ 0)
    (hlen : m.length ≤ 2 ^ k) (hjoins : Joins (2 ^ k) p m) (hplan : plan (2 ^ k) (p % 2 ^ 64) (p % 2 ^ 64) m = some pl)
    : pl.tail = (p + m.length) % 2 ^ 64 ∧ Cells.Placed (2 ^ k) p pl.copies ∧ Cells.content pl.copies = m := by
  by_cases hfit : p % 2 ^ k + m.length ≤ 2 ^ k
  . rw [plan_of_fits hk (Nat.le_refl p) (by omega) hne hfit] at hplan
    split at hplan
    . cases hplan
    . cases hplan
      exact ⟨rfl, placed_of_fits hfit, by simp [Cells.content]⟩
  . have hheader : kHeaderBytes ≤ 2 ^ k - p % 2 ^ k := hjoins.resolve_left hfit
    rw [plan_of_crosses hk hlen (by omega), if_pos hheader] at hplan
    split at hplan
    . cases hplan
    . cases hplan
      exact ⟨rfl, placed_crossing hlen (by omega) hheader, content_crossing _ _ _⟩

theorem At.push_joins (hk : k < 64) {s : IoUringSender} {p : Nat} {m : List UInt8} {ring : SPSCByteRing}
    (h : At k s p p) (hne : m.length ≠ 0) (hlen : m.length ≤ 2 ^ k) (hjoins : Joins (2 ^ k) p m)
    (hpush : s.ring.push m = some ring)
    : At k { s with ring := ring } p (p + m.length) ∧ Cells.stream ring.buf (2 ^ k) p m.length = m := by
  unfold push at hpush
  rw [h.capacity, h.head, h.tail] at hpush
  split at hpush
  . cases hpush
  . next pl hplan =>
    obtain ⟨htail, hplaced, hcontent⟩ := plan_of_joins hk hne hlen hjoins hplan
    have hself := hplaced.self s.ring.buf (by rw [hcontent]; exact hlen)
    rw [hcontent] at hself
    cases hpush
    exact ⟨⟨h.running, rfl, rfl, htail⟩, hself⟩

theorem push_of_joins (hk : k < 64) {s : IoUringSender} {p : Nat} {m : List UInt8}
    (h : At k s p p) (hne : m.length ≠ 0) (hlen : 2 * m.length < 2 ^ k) (hjoins : Joins (2 ^ k) p m)
    : ∃ ring, s.ring.push m = some ring ∧
        At k { s with ring := ring } p (p + m.length) ∧
        Cells.stream ring.buf (2 ^ k) p m.length = m := by
  obtain ⟨pl, hplan, _⟩ := plan_of_empty hk p m hne (by omega)
  have hpush : ∃ ring, s.ring.push m = some ring := by
    unfold push
    rw [h.capacity, h.head, h.tail, hplan]
    exact ⟨_, rfl⟩
  obtain ⟨ring, hring⟩ := hpush
  exact ⟨ring, hring, h.push_joins hk hne (by omega) hjoins hring⟩

theorem push_of_not_joins (hk : k < 64) {s : IoUringSender} {p : Nat} {m : List UInt8}
    (h : At k s p p) (hlen : 2 * m.length < 2 ^ k) (hjoins : ¬ Joins (2 ^ k) p m)
    : ∃ ring, s.ring.push m = some ring ∧
        At k { s with ring := ring } p (Wrap.nextLap (2 ^ k) p + m.length) := by
  unfold Joins at hjoins
  rw [not_or] at hjoins
  have hplan := @plan_of_crosses k hk p p m (by omega) (by omega)
  rw [if_neg (not_full_of_empty hk (by omega)), if_neg hjoins.2] at hplan
  exists { s.ring with
    buf := Cells.writeAll s.ring.buf [(0, m)]
    tail := (Wrap.nextLap (2 ^ k) p + m.length) % 2 ^ 64 }
  constructor
  . unfold push
    rw [h.capacity, h.head, h.tail, hplan]
    dsimp only
    rw [h.capacity, h.head]
  . constructor
    . exact h.running
    . exact h.capacity
    . exact h.head
    . rfl

theorem send_of_push {s : IoUringSender} {m : List UInt8} {ring : SPSCByteRing}
    (hrun : s.running = true) (hne : m.length ≠ 0) (hpush : s.ring.push m = some ring)
    : send kernel s m = sendZcAll kernel m.length { s with ring := ring } m.length m.length := by
  unfold send
  dsimp only
  rw [hrun, if_neg (by simp [hne]), hpush]

theorem send_of_joins (hk : k < 64) (hkernel : kernel.SendsSome) {s : IoUringSender} {p : Nat}
    {m : List UInt8} (h : At k s p p) (hne : m.length ≠ 0) (hlen : 2 * m.length < 2 ^ k)
    (hjoins : Joins (2 ^ k) p m)
    : ∃ s', send kernel s m = some ((m.length : Int), s') ∧
        At k s' (p + m.length) (p + m.length) ∧ s'.wire = s.wire ++ m := by
  cases push_of_joins hk h hne hlen hjoins with
  | intro ring hring =>
    have hsend := sendZcAll_eq hk hkernel m.length hring.2.1 (Nat.le_refl _) (by omega)
      (Nat.le_refl _)
    rw [send_of_push h.running hne hring.1]
    cases hsend with
    | intro s' hs' =>
      exists s'
      refine ⟨hs'.1, hs'.2.1, ?_⟩
      rw [hs'.2.2]
      show s.wire ++ Cells.stream ring.buf (2 ^ k) p m.length = s.wire ++ m
      rw [hring.2.2]

theorem send_of_not_joins (hk : k < 64) (hkernel : kernel.SendsSome) {s : IoUringSender} {p : Nat}
    {m : List UInt8} (h : At k s p p) (hne : m.length ≠ 0) (hlen : 2 * m.length < 2 ^ k)
    (hjoins : ¬ Joins (2 ^ k) p m)
    : ∃ s', send kernel s m = some ((m.length : Int), s') ∧ ¬ s'.ring.isEmpty := by
  -- Where `push` moves the message, the gap it leaves is sent as if it were data, and as many bytes
  -- of the message stay behind.
  have hpos := Nat.mod_lt p (capacity_pos (k := k))
  have hlap := Wrap.nextLap_eq p (capacity_pos (k := k))
  have hroom : 2 ^ k < p % 2 ^ k + m.length := by
    unfold Joins at hjoins
    omega
  cases push_of_not_joins hk h hlen hjoins with
  | intro ring hring =>
    have hsend := sendZcAll_eq hk hkernel m.length hring.2
      (by omega : p + m.length ≤ _) (by omega) (Nat.le_refl _)
    rw [send_of_push h.running hne hring.1]
    cases hsend with
    | intro s' hs' =>
      exists s'
      constructor
      . exact hs'.1
      . unfold isEmpty
        rw [hs'.2.1.head, hs'.2.1.tail]
        intro heq
        have hcap := capacity_le hk
        have hsame := Wrap.eq_of_mod_eq (W := 2 ^ 64) (by omega) (by omega) heq.symm
        omega

def Exact (kernel : Kernel) (s : IoUringSender) (msgs : List (List UInt8)) : Prop :=
  ∀ pre m post, msgs = pre ++ m :: post → ∃ s₁ s₂,
    Run.exec (step kernel) s pre = some s₁ ∧ send kernel s₁ m = some ((m.length : Int), s₂) ∧
      s₂.wire = (pre ++ [m]).flatten ∧ s₂.ring.isEmpty

def Reached (kernel : Kernel) (k : Nat) (buf : Nat → UInt8) (pre : List (List UInt8)) : Prop :=
  ∃ s, Run.exec (step kernel) (fresh buf (2 ^ k)) pre = some s ∧
    At k s pre.flatten.length pre.flatten.length ∧ s.wire = pre.flatten

theorem reached (hk : k < 64) (hkernel : kernel.SendsSome) (buf : Nat → UInt8)
    {msgs : List (List UInt8)} (hmsgs : ∀ m ∈ msgs, 1 ≤ m.length ∧ 2 * m.length < 2 ^ k)
    (hjoins : ∀ pre m post, msgs = pre ++ m :: post → Reached kernel k buf pre →
      Joins (2 ^ k) pre.flatten.length m) (pre post : List (List UInt8)) (hsplit : msgs = pre ++ post)
    : Reached kernel k buf pre := by
  induction pre using List.reverseRecOn generalizing post with
  | nil =>
    exists fresh buf (2 ^ k)
    refine ⟨rfl, ?_, rfl⟩
    constructor
    . rfl
    . rfl
    . rfl
    . rfl
  | append_singleton pre m ih =>
    rw [List.append_assoc, List.singleton_append] at hsplit
    have hpre := ih (m :: post) hsplit
    have hm := hmsgs m (by rw [hsplit]; simp)
    have hj := hjoins pre m post hsplit hpre
    cases hpre with
    | intro s hs =>
      cases send_of_joins hk hkernel hs.2.1 (by omega) hm.2 hj with
      | intro s' hs' =>
        exists s'
        rw [List.flatten_concat, List.length_append]
        refine ⟨?_, hs'.2.1, ?_⟩
        . rw [Run.exec_append, hs.1]
          simp only [Option.bind_some, Run.exec, step]
          rw [hs'.1]
          rfl
        . rw [hs'.2.2, hs.2.2]

/--
A fresh sender puts exactly the messages on the connection if and only if no message crosses the end of
the ring from a position with less than a header of room before that end.
-/
theorem exact_iff (hk : k < 64) (hkernel : kernel.SendsSome) (buf : Nat → UInt8)
    {msgs : List (List UInt8)} (hmsgs : ∀ m ∈ msgs, 1 ≤ m.length ∧ 2 * m.length < 2 ^ k)
    : Exact kernel (fresh buf (2 ^ k)) msgs ↔
        ∀ pre m post, msgs = pre ++ m :: post → Joins (2 ^ k) pre.flatten.length m := by
  constructor
  . intro hexact
    have hjoins : ∀ pre m post, msgs = pre ++ m :: post → Reached kernel k buf pre →
        Joins (2 ^ k) pre.flatten.length m := by
      intro pre m post hsplit hpre
      have hm := hmsgs m (by rw [hsplit]; simp)
      apply Classical.byContradiction
      intro hnot
      cases hpre with
      | intro s hs =>
        cases send_of_not_joins hk hkernel hs.2.1 (by omega) hm.2 hnot with
        | intro s' hs' =>
          have hclaim := hexact pre m post hsplit
          cases hclaim with
          | intro s₁ hclaim =>
            cases hclaim with
            | intro s₂ hclaim =>
              have hs₁ : s = s₁ := Option.some.inj (hs.1.symm.trans hclaim.1)
              subst hs₁
              have hs₂ := hs'.1.symm.trans hclaim.2.1
              rw [Option.some.injEq, Prod.mk.injEq] at hs₂
              apply hs'.2
              rw [hs₂.2]
              exact hclaim.2.2.2
    intro pre m post hsplit
    apply hjoins pre m post hsplit
    apply reached hk hkernel buf hmsgs hjoins pre (m :: post) hsplit
  . intro hjoins pre m post hsplit
    have hpre := reached hk hkernel buf hmsgs (fun pre m post hsplit _ => hjoins pre m post hsplit)
      pre (m :: post) hsplit
    have hm := hmsgs m (by rw [hsplit]; simp)
    cases hpre with
    | intro s hs =>
      cases send_of_joins hk hkernel hs.2.1 (by omega) hm.2 (hjoins pre m post hsplit) with
      | intro s' hs' =>
        exists s, s'
        refine ⟨hs.1, hs'.1, ?_, ?_⟩
        . rw [hs'.2.2, hs.2.2, List.flatten_concat]
        . unfold isEmpty
          rw [hs'.2.1.head, hs'.2.1.tail]

def halves : Kernel := fun _ chunk => .done ((chunk.length + 1) / 2 : Nat)

theorem halves_sendsSome : halves.SendsSome := by
  intro i chunk hne
  have hpos := List.length_pos_iff.2 hne
  exists (chunk.length + 1) / 2
  refine ⟨rfl, ?_, ?_⟩
  . omega
  . omega

theorem exact_iff_order_cancel
    : Exact halves (fresh (fun _ => 0) (2 ^ 7)) [List.replicate 49 79, List.replicate 19 88] ↔
        ∀ pre m post, [List.replicate 49 79, List.replicate 19 88] = pre ++ m :: post →
          Joins (2 ^ 7) pre.flatten.length m :=
  exact_iff (by decide) halves_sendsSome _ (by decide)

theorem not_exact_query
    : halves.SendsSome ∧
      (∀ m ∈ List.replicate 3 (List.replicate 19 88) ++ [List.replicate 13 81],
        1 ≤ m.length ∧ 2 * m.length < 2 ^ 6) ∧
      ¬ Exact halves (fresh (fun _ => 0) (2 ^ 6))
        (List.replicate 3 (List.replicate 19 88) ++ [List.replicate 13 81]) := by
  -- Three cancels of 19 bytes leave 7 bytes before the end of a ring of 64 bytes. The query of 13
  -- bytes that follows is moved behind them: the 7 bytes go out before it, and its own last 7 bytes
  -- stay in the ring.
  refine ⟨halves_sendsSome, by decide, ?_⟩
  intro hexact
  have hlast := hexact (List.replicate 3 (List.replicate 19 88)) (List.replicate 13 81) [] rfl
  have hrun : ((Run.exec (step halves) (fresh (fun _ => 0) (2 ^ 6))
      (List.replicate 3 (List.replicate 19 88))).bind
      (fun s => send halves s (List.replicate 13 81))).map
      (fun r => (r.2.ring.head, r.2.ring.tail)) = some (70, 77) := by
    decide +kernel
  cases hlast with
  | intro s₁ hlast =>
    cases hlast with
    | intro s₂ hlast =>
      rw [hlast.1, Option.bind_some, hlast.2.1, Option.map_some, Option.some.injEq,
        Prod.mk.injEq] at hrun
      have hempty := hlast.2.2.2
      unfold isEmpty at hempty
      dsimp only at hrun
      omega

end IoUringSender

end NebulaXTrader
