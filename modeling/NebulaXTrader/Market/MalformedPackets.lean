import NebulaXTrader.Market.MoldUdpUnpacker

/-!
This module contains what `MoldUdpUnpacker::feed` does with malformed input: which bytes it reads, that it ends, and
when a bad message makes it take what follows for a header.
-/

namespace NebulaXTrader

open Positional (bytes word length_bytes word_bytes)

namespace MoldUdpUnpacker

open ReplayClient

/--
The reads of the input: a header, the length of a message, a message of that many bytes.
-/
inductive Read where
  | header (pos : Nat)
  | bodyLen (pos : Nat)
  | message (pos : Nat) (bodyLen : Nat)
  deriving DecidableEq

namespace Read

def stop : Read → Nat
  | header pos => pos + kHeaderLen
  | bodyLen pos => pos + 2
  | message pos n => pos + (2 + n)

/--
Nothing from the position `p` on is taken for a header or a message. That the message at `p` is bad shows in its
length.
-/
def Before (p : Nat) : Read → Prop
  | header pos => pos < p
  | bodyLen pos => pos ≤ p
  | message pos _ => pos < p

end Read

/--
What the loop over the messages reads.
-/
def readMessages (pkt : List UInt8) (n pos : Nat) : List Read :=
  match n with
  | 0 => []
  | n + 1 =>
    if pos + 2 > pkt.length then
      []
    else
      let bodyLen := be16 pkt pos
      if bodyLen < 1 ∨ bodyLen > 200 then
        [.bodyLen pos]
      else
        let msgLen := 2 + bodyLen
        if pos + msgLen > pkt.length then
          [.bodyLen pos]
        else
          .bodyLen pos :: .message pos bodyLen :: readMessages pkt n (pos + msgLen)

/--
What the loop over the packets reads.
-/
def readPackets (pkt : List UInt8) (fuel pos : Nat) : List Read :=
  match fuel with
  | 0 => []
  | fuel + 1 =>
    if pos + kHeaderLen ≤ pkt.length then
      let seq := be64 pkt (pos + 10)
      let count := be16 pkt (pos + 18)
      .header pos :: (readMessages pkt count (pos + kHeaderLen) ++
        readPackets pkt fuel (feedMessages pkt seq 0 count (pos + kHeaderLen)).2)
    else
      []

def reads (pkt : List UInt8) : List Read := readPackets pkt pkt.length 0

/--
No message stands at the front: its length is out of range or runs past the end.
-/
def NoMessage (tail : List UInt8) : Prop :=
  tail.length < 2 ∨ be16 tail 0 < 1 ∨ be16 tail 0 > 200 ∨ tail.length < 2 + be16 tail 0

/--
The longest prefix of the input that is a sequence of packets: the messages in it, with their numbers, and what is
left when it ends at a bad message.
-/
inductive Parse : List UInt8 → List (List UInt8) → Option (List UInt8) → Prop
  | done {rest : List UInt8} : rest.length < kHeaderLen → Parse rest [] none
  | packet {head rest : List UInt8} {bs : List ItchBody} {pushed : List (List UInt8)} {bad : Option (List UInt8)} :
      head.length = kHeaderLen → be16 head 18 = bs.length → Parse rest pushed bad →
        Parse (head ++ bs.flatMap message ++ rest) (numbered (be64 head 10) bs ++ pushed) bad
  | bad {head tail : List UInt8} {bs : List ItchBody} :
      head.length = kHeaderLen → bs.length < be16 head 18 → NoMessage tail →
        Parse (head ++ bs.flatMap message ++ tail) (numbered (be64 head 10) bs) (some tail)

theorem noMessage_of {pkt : List UInt8} {pos : Nat} (h : NoMessage (pkt.drop pos))
    : pos + 2 > pkt.length ∨ (be16 pkt pos < 1 ∨ be16 pkt pos > 200) ∨ pos + (2 + be16 pkt pos) > pkt.length := by
  have hlen : be16 (pkt.drop pos) 0 = be16 pkt pos := by
    unfold be16 be
    rw [List.drop_zero]
  unfold NoMessage at h
  rw [hlen, List.length_drop] at h
  omega

theorem Read.Before.mono {p q : Nat} {r : Read} (h : r.Before p) (hle : p ≤ q) : r.Before q := by
  cases r with
  | header pos => exact Nat.lt_of_lt_of_le h hle
  | bodyLen pos => exact Nat.le_trans h hle
  | message pos n => exact Nat.lt_of_lt_of_le h hle

theorem Parse.tail_le {rest tail : List UInt8} {pushed : List (List UInt8)} {bad : Option (List UInt8)}
    (h : Parse rest pushed bad) (hbad : bad = some tail) : tail.length ≤ rest.length := by
  induction h with
  | done _ => cases hbad
  | packet _ _ _ ih =>
    have hle := ih hbad
    simp only [List.length_append]
    omega
  | bad _ _ _ =>
    cases hbad
    simp only [List.length_append]
    omega

/-!
A round of the loop moves on, so that the length of the input is fuel enough.
-/

variable {pkt : List UInt8}

theorem le_feedMessages (pkt : List UInt8) (seq i n pos : Nat) : pos ≤ (feedMessages pkt seq i n pos).2 := by
  induction n generalizing i pos with
  | zero => exact Nat.le_refl pos
  | succ n ih =>
    unfold feedMessages
    split
    . exact Nat.le_refl pos
    . dsimp only
      split
      . exact Nat.le_refl pos
      . split
        . exact Nat.le_refl pos
        . exact Nat.le_trans (Nat.le_add_right pos _) (ih (i + 1) (pos + (2 + be16 pkt pos)))

theorem feedPackets_succ {fuel pos : Nat} (h : pos + kHeaderLen ≤ pkt.length)
    : let r := feedMessages pkt (be64 pkt (pos + 10)) 0 (be16 pkt (pos + 18)) (pos + kHeaderLen)
      feedPackets pkt (fuel + 1) pos = r.1 ++ feedPackets pkt fuel r.2 ∧
        readPackets pkt (fuel + 1) pos =
          .header pos :: (readMessages pkt (be16 pkt (pos + 18)) (pos + kHeaderLen) ++ readPackets pkt fuel r.2) := by
  intro r
  constructor
  . conv => lhs; unfold feedPackets
    rw [if_pos h]
  . conv => lhs; unfold readPackets
    rw [if_pos h]

theorem feedPackets_short {fuel pos : Nat} (h : ¬ pos + kHeaderLen ≤ pkt.length)
    : feedPackets pkt fuel pos = [] ∧ readPackets pkt fuel pos = [] := by
  cases fuel with
  | zero => exact ⟨rfl, rfl⟩
  | succ fuel =>
    unfold feedPackets readPackets
    rw [if_neg h, if_neg h]
    exact ⟨rfl, rfl⟩

theorem feedPackets_fuel {fuel fuel' pos : Nat} (h : pkt.length ≤ pos + fuel) (h' : pkt.length ≤ pos + fuel')
    : feedPackets pkt fuel pos = feedPackets pkt fuel' pos ∧
        readPackets pkt fuel pos = readPackets pkt fuel' pos := by
  induction fuel generalizing fuel' pos with
  | zero =>
    have hshort : ¬ pos + kHeaderLen ≤ pkt.length := by
      unfold kHeaderLen
      omega
    have hnone := fun fuel => @feedPackets_short pkt fuel pos hshort
    rw [(hnone 0).1, (hnone fuel').1, (hnone 0).2, (hnone fuel').2]
    exact ⟨rfl, rfl⟩
  | succ fuel ih =>
    by_cases hheader : pos + kHeaderLen ≤ pkt.length
    . cases fuel' with
      | zero =>
        have hlen : pos + 20 ≤ pkt.length := hheader
        omega
      | succ fuel' =>
        have hround := @feedPackets_succ pkt fuel pos hheader
        have hround' := @feedPackets_succ pkt fuel' pos hheader
        have hle := le_feedMessages pkt (be64 pkt (pos + 10)) 0 (be16 pkt (pos + 18)) (pos + kHeaderLen)
        dsimp only at hround hround'
        generalize (feedMessages pkt (be64 pkt (pos + 10)) 0 (be16 pkt (pos + 18)) (pos + kHeaderLen)).2 = next at *
        have hpos : pos + 20 ≤ next := hle
        have hrest := @ih fuel' next (by omega) (by omega)
        rw [hround.1, hround'.1, hround.2, hround'.2, hrest.1, hrest.2]
        exact ⟨rfl, rfl⟩
    . have hnone := fun fuel => @feedPackets_short pkt fuel pos hheader
      rw [(hnone (fuel + 1)).1, (hnone fuel').1, (hnone (fuel + 1)).2, (hnone fuel').2]
      exact ⟨rfl, rfl⟩

theorem stop_readMessages (pkt : List UInt8) (n pos : Nat)
    : ∀ r ∈ readMessages pkt n pos, r.stop ≤ pkt.length := by
  induction n generalizing pos with
  | zero =>
    intro r hr
    cases hr
  | succ n ih =>
    intro r hr
    unfold readMessages at hr
    split at hr
    . cases hr
    . next hlen =>
      have hbodyLen : pos + 2 ≤ pkt.length := Nat.le_of_not_lt hlen
      dsimp only at hr
      split at hr
      . rw [List.mem_singleton.1 hr]
        exact hbodyLen
      . split at hr
        . rw [List.mem_singleton.1 hr]
          exact hbodyLen
        . next hmessage =>
          cases hr with
          | head => exact hbodyLen
          | tail _ hr =>
            cases hr with
            | head => exact Nat.le_of_not_lt hmessage
            | tail _ hr => exact ih _ r hr

theorem stop_readPackets (pkt : List UInt8) (fuel pos : Nat)
    : ∀ r ∈ readPackets pkt fuel pos, r.stop ≤ pkt.length := by
  induction fuel generalizing pos with
  | zero =>
    intro r hr
    cases hr
  | succ fuel ih =>
    intro r hr
    unfold readPackets at hr
    split at hr
    . next hheader =>
      dsimp only at hr
      cases hr with
      | head => exact hheader
      | tail _ hr =>
        cases List.mem_append.1 hr with
        | inl hr => exact stop_readMessages pkt _ _ r hr
        | inr hr => exact ih _ r hr
    . cases hr

/-!
The messages of one packet.
-/

theorem feedMessages_stop {seq i n pos : Nat} (h : NoMessage (pkt.drop pos))
    : feedMessages pkt seq i n pos = ([], pos) ∧ ∀ r ∈ readMessages pkt n pos, r.Before pos := by
  have hbad := noMessage_of h
  cases n with
  | zero =>
    refine ⟨rfl, ?_⟩
    intro r hr
    cases hr
  | succ n =>
    unfold feedMessages readMessages
    dsimp only
    split
    . refine ⟨rfl, ?_⟩
      intro r hr
      cases hr
    . split
      . refine ⟨rfl, ?_⟩
        intro r hr
        rw [List.mem_singleton.1 hr]
        exact Nat.le_refl pos
      . rw [if_pos (by omega), if_pos (by omega)]
        refine ⟨rfl, ?_⟩
        intro r hr
        rw [List.mem_singleton.1 hr]
        exact Nat.le_refl pos

theorem feedMessages_append {tail : List UInt8} {pos : Nat} (bs : List ItchBody)
    (h : pkt.drop pos = bs.flatMap message ++ tail) (hpos : pos ≤ pkt.length) (seq i n : Nat)
    : feedMessages pkt seq i (bs.length + n) pos =
        let r := feedMessages pkt seq (i + bs.length) n (pos + (bs.flatMap message).length)
        (numbered (seq + i) bs ++ r.1, r.2) := by
  induction bs generalizing pos i with
  | nil =>
    rw [List.length_nil, Nat.zero_add]
    rfl
  | cons b bs ih =>
    rw [List.flatMap_cons, List.append_assoc] at h
    have hlen := length_of_drop h hpos
    rw [List.length_append] at hlen
    have hrest := ih (drop_of_drop h rfl) (by omega) (i + 1)
    have hcount : (b :: bs).length + n = bs.length + n + 1 := by
      rw [List.length_cons]
      omega
    rw [hcount, feedMessages_message b h hpos, hrest, List.flatMap_cons, List.length_append, numbered_cons,
      List.length_cons]
    dsimp only
    rw [Nat.add_assoc, Nat.add_assoc, Nat.add_assoc, Nat.add_comm 1, List.cons_append]

theorem readMessages_message {rest : List UInt8} {pos : Nat} (b : ItchBody)
    (h : pkt.drop pos = message b ++ rest) (hpos : pos ≤ pkt.length) (n : Nat)
    : readMessages pkt (n + 1) pos =
        .bodyLen pos :: .message pos b.1.length :: readMessages pkt n (pos + (message b).length) := by
  have hb := b.2
  have hmessage := length_message b
  have hlen := length_of_drop h hpos
  rw [List.length_append] at hlen
  conv => lhs; unfold readMessages
  rw [if_neg (by omega)]
  dsimp only
  rw [be16_message b h, if_neg (by omega), if_neg (by omega), hmessage]

theorem readMessages_append {tail : List UInt8} {pos : Nat} (bs : List ItchBody)
    (h : pkt.drop pos = bs.flatMap message ++ tail) (hpos : pos ≤ pkt.length) (n : Nat)
    : ∃ rs, readMessages pkt (bs.length + n) pos =
          rs ++ readMessages pkt n (pos + (bs.flatMap message).length) ∧
        ∀ r ∈ rs, r.Before (pos + (bs.flatMap message).length) := by
  induction bs generalizing pos with
  | nil =>
    refine ⟨[], ?_, ?_⟩
    . rw [List.length_nil, Nat.zero_add]
      rfl
    . intro r hr
      cases hr
  | cons b bs ih =>
    have hb := length_message b
    rw [List.flatMap_cons, List.append_assoc] at h
    have hlen := length_of_drop h hpos
    rw [List.length_append] at hlen
    obtain ⟨rs, hrest, hbefore⟩ := ih (drop_of_drop h rfl) (by omega)
    have hcount : (b :: bs).length + n = bs.length + n + 1 := by
      rw [List.length_cons]
      omega
    rw [List.flatMap_cons, List.length_append, ← Nat.add_assoc]
    refine ⟨.bodyLen pos :: .message pos b.1.length :: rs, ?_, ?_⟩
    . rw [hcount, readMessages_message b h hpos, hrest]
      rfl
    . intro r hr
      cases hr with
      | head =>
        show pos ≤ _
        omega
      | tail _ hr =>
        cases hr with
        | head =>
          show pos < _
          omega
        | tail _ hr => exact hbefore r hr

/-!
The packets. What follows a bad message is read as if a packet started there.
-/

/--
What the loop pushes and reads from the bad message on.
-/
def pushedAfter (pkt : List UInt8) : Option (List UInt8) → List (List UInt8)
  | none => []
  | some tail => feedPackets pkt pkt.length (pkt.length - tail.length)

def readAfter (pkt : List UInt8) : Option (List UInt8) → List Read
  | none => []
  | some tail => readPackets pkt pkt.length (pkt.length - tail.length)

theorem be_head {head rest : List UInt8} {pos off n : Nat} (h : pkt.drop pos = head ++ rest)
    (hoff : off + n ≤ head.length) : be n pkt (pos + off) = be n head off := by
  unfold be
  rw [← List.drop_drop, h, List.drop_append_of_le_length (by omega), List.take_append_of_le_length]
  rw [List.length_drop]
  omega

theorem feedPackets_header {head tail : List UInt8} {bs : List ItchBody} {pos fuel n : Nat}
    (h : pkt.drop pos = head ++ bs.flatMap message ++ tail) (hhead : head.length = kHeaderLen)
    (hcount : be16 head 18 = bs.length + n) (hpos : pos ≤ pkt.length)
    : let next := pos + kHeaderLen + (bs.flatMap message).length
      let r := feedMessages pkt (be64 head 10) bs.length n next
      feedPackets pkt (fuel + 1) pos = numbered (be64 head 10) bs ++ r.1 ++ feedPackets pkt fuel r.2 ∧
        ∃ rs, readPackets pkt (fuel + 1) pos = rs ++ readMessages pkt n next ++ readPackets pkt fuel r.2 ∧
          ∀ r ∈ rs, r.Before next := by
  -- A round over a header and some messages, behind which it goes on with `n` more of the same packet.
  intro next r
  have hlen := length_of_drop h hpos
  rw [List.length_append, List.length_append, hhead] at hlen
  rw [List.append_assoc] at h
  have hseq : be64 pkt (pos + 10) = be64 head 10 := by
    apply be_head h
    rw [hhead]
    decide
  have hcount' : be16 pkt (pos + 18) = bs.length + n := by
    rw [← hcount]
    apply be_head h
    rw [hhead]
    decide
  have hbody : pkt.drop (pos + kHeaderLen) = bs.flatMap message ++ tail := drop_of_drop h hhead
  have hfeed := feedMessages_append bs hbody (by omega) (be64 head 10) 0 n
  obtain ⟨rs, hread, hbefore⟩ := readMessages_append bs hbody (by omega) n
  rw [Nat.add_zero, Nat.zero_add] at hfeed
  have hround := @feedPackets_succ pkt fuel pos (by omega)
  dsimp only at hround
  rw [hseq, hcount', hfeed, hread] at hround
  refine ⟨hround.1, .header pos :: rs, ?_, ?_⟩
  . rw [hround.2, List.cons_append, List.cons_append, List.append_assoc]
  . intro r hr
    cases hr with
    | head =>
      show pos < pos + 20 + _
      omega
    | tail _ hr => exact hbefore r hr

theorem drop_packet {head rest : List UInt8} {bs : List ItchBody} {pos : Nat}
    (h : pkt.drop pos = head ++ bs.flatMap message ++ rest) (hhead : head.length = kHeaderLen)
    : pkt.drop (pos + kHeaderLen + (bs.flatMap message).length) = rest := by
  rw [List.append_assoc] at h
  exact drop_of_drop (drop_of_drop h hhead) rfl

theorem feedPackets_parse {rest : List UInt8} {pushed : List (List UInt8)} {bad : Option (List UInt8)}
    (h : Parse rest pushed bad) {pos fuel : Nat} (hrest : pkt.drop pos = rest) (hpos : pos ≤ pkt.length)
    (hfuel : pkt.length ≤ pos + fuel)
    : feedPackets pkt fuel pos = pushed ++ pushedAfter pkt bad ∧
        ∃ rs, readPackets pkt fuel pos = rs ++ readAfter pkt bad ∧
          ∀ tail, bad = some tail → ∀ r ∈ rs, r.Before (pkt.length - tail.length) := by
  induction h generalizing pos fuel with
  | @done rest hshort =>
    have hlen := length_of_drop hrest hpos
    have hnone := @feedPackets_short pkt fuel pos (by omega)
    refine ⟨hnone.1, [], hnone.2, ?_⟩
    intro tail htail
    cases htail
  | @packet head rest bs pushed bad hhead hcount hparse ih =>
    have hlen := length_of_drop hrest hpos
    rw [List.length_append, List.length_append, hhead] at hlen
    have hheader : kHeaderLen = 20 := rfl
    cases fuel with
    | zero => omega
    | succ fuel =>
      obtain ⟨hfeed, rs, hread, hbefore⟩ := @feedPackets_header pkt head rest bs pos fuel 0 hrest hhead hcount hpos
      have hnext := drop_packet hrest hhead
      obtain ⟨hfeed', rs', hread', hbefore'⟩ := @ih _ fuel hnext (by omega) (by omega)
      dsimp only [feedMessages] at hfeed hread
      refine ⟨?_, rs ++ rs', ?_, ?_⟩
      . rw [hfeed, hfeed', List.append_nil, List.append_assoc]
      . rw [hread, hread', readMessages, List.append_nil, List.append_assoc]
      . intro tail htail r hr
        cases List.mem_append.1 hr with
        | inl hr =>
          have hend := hparse.tail_le htail
          exact (hbefore r hr).mono (by omega)
        | inr hr => exact hbefore' tail htail r hr
  | @bad head tail bs hhead hcount htail =>
    have hlen := length_of_drop hrest hpos
    rw [List.length_append, List.length_append, hhead] at hlen
    have hheader : kHeaderLen = 20 := rfl
    have hnext := drop_packet hrest hhead
    have hend : pos + kHeaderLen + (bs.flatMap message).length = pkt.length - tail.length := by omega
    cases fuel with
    | zero => omega
    | succ fuel =>
      obtain ⟨hfeed, rs, hread, hbefore⟩ := @feedPackets_header pkt head tail bs pos fuel
        (be16 head 18 - bs.length) hrest hhead (by omega) hpos
      have hstop := @feedMessages_stop pkt (be64 head 10) bs.length (be16 head 18 - bs.length) _
        (by rw [hnext]; exact htail)
      have hfuel := @feedPackets_fuel pkt fuel pkt.length (pkt.length - tail.length) (by omega) (by omega)
      rw [hend] at hfeed hread hbefore hstop
      rw [hstop.1] at hfeed hread
      refine ⟨?_, rs ++ readMessages pkt (be16 head 18 - bs.length) (pkt.length - tail.length), ?_, ?_⟩
      . rw [hfeed, List.append_nil, hfuel.1]
        rfl
      . rw [hread, hfuel.2]
        rfl
      . intro tail' htail' r hr
        cases htail'
        cases List.mem_append.1 hr with
        | inl hr => exact hbefore r hr
        | inr hr => exact hstop.2 r hr

/--
A call injects nothing: it pushes the messages of the longest sequence of packets, and nothing behind it is read
as a header or a message.
-/
structure InjectsNothing (pkt : List UInt8) (pushed : List (List UInt8)) (bad : Option (List UInt8)) : Prop where
  pushes : (feed pkt).1 = pushed
  silent : ∀ tail, bad = some tail → ∀ r ∈ reads pkt, r.Before (pkt.length - tail.length)

theorem exists_message {rest : List UInt8} (h : ¬ NoMessage rest)
    : ∃ (b : ItchBody) (rest' : List UInt8), rest = message b ++ rest' := by
  unfold NoMessage at h
  have hbody : ((rest.drop 2).take (be16 rest 0)).length = be16 rest 0 := by
    rw [List.length_take, List.length_drop]
    omega
  refine ⟨⟨(rest.drop 2).take (be16 rest 0), ?_⟩, (rest.drop 2).drop (be16 rest 0), ?_⟩
  . rw [hbody]
    omega
  . have hlen : bytes 2 (be16 rest 0) = rest.take 2 := by
      have hword := Positional.bytes_word (rest.take 2)
      rw [List.length_take, Nat.min_eq_left (by omega)] at hword
      exact hword
    show rest = bytes 2 ((rest.drop 2).take (be16 rest 0)).length ++ (rest.drop 2).take (be16 rest 0) ++ _
    rw [hbody, hlen, List.append_assoc, List.take_append_drop, List.take_append_drop]

theorem exists_messages (n : Nat) (rest : List UInt8)
    : ∃ (bs : List ItchBody) (tail : List UInt8), rest = bs.flatMap message ++ tail ∧
        (bs.length = n ∨ bs.length < n ∧ NoMessage tail) := by
  induction n generalizing rest with
  | zero => exact ⟨[], rest, rfl, Or.inl rfl⟩
  | succ n ih =>
    by_cases hbad : NoMessage rest
    . exact ⟨[], rest, rfl, Or.inr ⟨Nat.succ_pos n, hbad⟩⟩
    . obtain ⟨b, rest', hrest⟩ := exists_message hbad
      obtain ⟨bs, tail, hbs, hlen⟩ := ih rest'
      refine ⟨b :: bs, tail, ?_, ?_⟩
      . rw [hrest, hbs, List.flatMap_cons, List.append_assoc]
      . rw [List.length_cons]
        cases hlen with
        | inl hall => exact Or.inl (congrArg (· + 1) hall)
        | inr hstop => exact Or.inr ⟨Nat.succ_lt_succ hstop.1, hstop.2⟩

theorem exists_parse (pkt : List UInt8) : ∃ pushed bad, Parse pkt pushed bad := by
  induction hlen : pkt.length using Nat.strong_induction_on generalizing pkt with
  | _ n ih =>
    by_cases hshort : pkt.length < kHeaderLen
    . exact ⟨_, _, .done hshort⟩
    . have hhead : (pkt.take kHeaderLen).length = kHeaderLen := by
        rw [List.length_take]
        omega
      have hheader : kHeaderLen = 20 := rfl
      obtain ⟨bs, tail, hbs, hcount⟩ := exists_messages (be16 (pkt.take kHeaderLen) 18) (pkt.drop kHeaderLen)
      have hsplit : pkt = pkt.take kHeaderLen ++ bs.flatMap message ++ tail := by
        rw [List.append_assoc, ← hbs, List.take_append_drop]
      have hlong := congrArg List.length hsplit
      rw [List.length_append, List.length_append, hhead] at hlong
      rw [hsplit]
      cases hcount with
      | inl hcount =>
        obtain ⟨pushed, bad, hparse⟩ := ih tail.length (by omega) tail rfl
        exact ⟨_, _, .packet hhead hcount.symm hparse⟩
      | inr hcount => exact ⟨_, _, .bad hhead hcount.1 hcount.2⟩

theorem message_inj {b b' : ItchBody} {rest rest' : List UInt8} (h : message b ++ rest = message b' ++ rest')
    : b = b' ∧ rest = rest' := by
  have hlen := @be16_message (message b ++ rest) rest 0 b rfl
  have hlen' := @be16_message (message b ++ rest) rest' 0 b' (by rw [List.drop_zero, h])
  have hbody : b.1.length = b'.1.length := hlen.symm.trans hlen'
  have hinj := List.append_inj h (by rw [length_message, length_message, hbody])
  unfold message at hinj
  exact ⟨Subtype.ext (List.append_inj_right hinj.1 (by rw [length_bytes, length_bytes])), hinj.2⟩

theorem not_noMessage (b : ItchBody) (rest : List UInt8) : ¬ NoMessage (message b ++ rest) := by
  have hb := b.2
  have hlen := @be16_message (message b ++ rest) rest 0 b rfl
  unfold NoMessage
  rw [hlen, List.length_append, length_message]
  omega

theorem messages_inj {n : Nat} {bs bs' : List ItchBody} {tail tail' : List UInt8}
    (h : bs.flatMap message ++ tail = bs'.flatMap message ++ tail')
    (hbs : bs.length = n ∨ bs.length < n ∧ NoMessage tail)
    (hbs' : bs'.length = n ∨ bs'.length < n ∧ NoMessage tail') : bs = bs' ∧ tail = tail' := by
  induction n generalizing bs bs' with
  | zero =>
    have hnil : bs = [] := List.eq_nil_of_length_eq_zero (by omega)
    have hnil' : bs' = [] := List.eq_nil_of_length_eq_zero (by omega)
    subst hnil hnil'
    exact ⟨rfl, h⟩
  | succ n ih =>
    cases bs with
    | nil =>
      cases bs' with
      | nil => exact ⟨rfl, h⟩
      | cons b' bs' =>
        have htail : tail = message b' ++ (bs'.flatMap message ++ tail') := by
          rw [← List.append_assoc]
          exact h
        cases hbs with
        | inl hbs => cases hbs
        | inr hbs =>
          rw [htail] at hbs
          exact absurd hbs.2 (not_noMessage b' _)
    | cons b bs =>
      rw [List.flatMap_cons, List.append_assoc] at h
      cases bs' with
      | nil =>
        have htail : tail' = message b ++ (bs.flatMap message ++ tail) := h.symm
        cases hbs' with
        | inl hbs' => cases hbs'
        | inr hbs' =>
          rw [htail] at hbs'
          exact absurd hbs'.2 (not_noMessage b _)
      | cons b' bs' =>
        rw [List.flatMap_cons, List.append_assoc] at h
        have hfirst := message_inj h
        rw [List.length_cons, Nat.add_right_cancel_iff, Nat.add_lt_add_iff_right] at hbs hbs'
        have hrest := ih hfirst.2 hbs hbs'
        rw [hfirst.1, hrest.1]
        exact ⟨rfl, hrest.2⟩

theorem Parse.inv {rest : List UInt8} {pushed : List (List UInt8)} {bad : Option (List UInt8)}
    (h : Parse rest pushed bad)
    : rest.length < kHeaderLen ∧ pushed = [] ∧ bad = none ∨
        ∃ (head tail : List UInt8) (bs : List ItchBody), rest = head ++ (bs.flatMap message ++ tail) ∧
          head.length = kHeaderLen ∧
          ((bs.length = be16 head 18 ∧ ∃ pushed', Parse tail pushed' bad ∧
              pushed = numbered (be64 head 10) bs ++ pushed') ∨
            ((bs.length < be16 head 18 ∧ NoMessage tail) ∧ pushed = numbered (be64 head 10) bs ∧
              bad = some tail)) := by
  -- A prefix that ends at a short rest, or a header with its messages and then either the next packet or a bad
  -- message.
  cases h with
  | done hshort => exact Or.inl ⟨hshort, rfl, rfl⟩
  | packet hhead hcount hparse =>
    exact Or.inr ⟨_, _, _, List.append_assoc _ _ _, hhead, Or.inl ⟨hcount.symm, _, hparse, rfl⟩⟩
  | bad hhead hcount htail =>
    exact Or.inr ⟨_, _, _, List.append_assoc _ _ _, hhead, Or.inr ⟨⟨hcount, htail⟩, rfl, rfl⟩⟩

theorem Parse.unique {rest : List UInt8} {pushed pushed' : List (List UInt8)} {bad bad' : Option (List UInt8)}
    (h : Parse rest pushed bad) (h' : Parse rest pushed' bad') : pushed = pushed' ∧ bad = bad' := by
  induction hlen : rest.length using Nat.strong_induction_on generalizing rest pushed pushed' with
  | _ n ih =>
    cases h.inv with
    | inl hdone =>
      cases h'.inv with
      | inl hdone' =>
        rw [hdone.2.1, hdone'.2.1, hdone.2.2, hdone'.2.2]
        exact ⟨rfl, rfl⟩
      | inr hmore' =>
        obtain ⟨head, tail, bs, hrest, hhead, _⟩ := hmore'
        rw [hrest, List.length_append] at hdone
        omega
    | inr hmore =>
      obtain ⟨head, tail, bs, hrest, hhead, hends⟩ := hmore
      cases h'.inv with
      | inl hdone' =>
        rw [hrest, List.length_append] at hdone'
        omega
      | inr hmore' =>
        obtain ⟨head', tail', bs', hrest', hhead', hends'⟩ := hmore'
        have hheads := List.append_inj (hrest.symm.trans hrest') (hhead.trans hhead'.symm)
        obtain ⟨rfl, hbodies⟩ := hheads
        have hlong := congrArg List.length hrest
        have hheader : kHeaderLen = 20 := rfl
        rw [List.length_append, List.length_append, hhead] at hlong
        have hsame := @messages_inj (be16 head 18) bs bs' tail tail' hbodies (hends.imp And.left And.left)
          (hends'.imp And.left And.left)
        obtain ⟨rfl, rfl⟩ := hsame
        cases hends with
        | inl hfull =>
          cases hends' with
          | inl hfull' =>
            obtain ⟨_, rest₁, hparse₁, hpushed₁⟩ := hfull
            obtain ⟨_, rest₂, hparse₂, hpushed₂⟩ := hfull'
            have hsame := ih tail.length (by omega) hparse₁ hparse₂ rfl
            rw [hpushed₁, hpushed₂, hsame.1]
            exact ⟨rfl, hsame.2⟩
          | inr hstop' =>
            have hlt := hstop'.1.1
            omega
        | inr hstop =>
          cases hends' with
          | inl hfull' =>
            have hlt := hstop.1.1
            omega
          | inr hstop' =>
            rw [hstop.2.1, hstop'.2.1, hstop.2.2, hstop'.2.2]
            exact ⟨rfl, rfl⟩

/--
All reads lie inside the input, more rounds would read and push no more, and the call injects nothing exactly if no
message is bad or less than a header follows from the bad one on.
-/
theorem injectsNothing_iff (pkt : List UInt8)
    : (∀ r ∈ reads pkt, r.stop ≤ pkt.length) ∧
        (∀ fuel, pkt.length ≤ fuel → feedPackets pkt fuel 0 = (feed pkt).1 ∧ readPackets pkt fuel 0 = reads pkt) ∧
        ∃ pushed bad, Parse pkt pushed bad ∧
          (∀ pushed' bad', Parse pkt pushed' bad' → pushed' = pushed ∧ bad' = bad) ∧
          (InjectsNothing pkt pushed bad ↔ ∀ tail, bad = some tail → tail.length < kHeaderLen) := by
  refine ⟨stop_readPackets pkt pkt.length 0, ?_, ?_⟩
  . intro fuel hfuel
    exact feedPackets_fuel (by omega) (by omega)
  . obtain ⟨pushed, bad, hparse⟩ := exists_parse pkt
    refine ⟨pushed, bad, hparse, fun _ _ hparse' => hparse'.unique hparse, ?_⟩
    obtain ⟨hfeed, rs, hread, hbefore⟩ := @feedPackets_parse pkt pkt pushed bad hparse 0 pkt.length List.drop_zero
      (Nat.zero_le _) (by omega)
    cases bad with
    | none =>
      rw [pushedAfter, List.append_nil] at hfeed
      constructor
      . intro _ tail htail
        cases htail
      . intro _
        refine ⟨hfeed, ?_⟩
        intro tail htail
        cases htail
    | some tail =>
      have hle := hparse.tail_le rfl
      constructor
      . intro hnothing tail' htail'
        cases htail'
        -- otherwise the next header is read from the bad message on
        by_cases hlong : tail.length < kHeaderLen
        . exact hlong
        . exfalso
          have hheader : kHeaderLen = 20 := rfl
          have hfuel := @feedPackets_fuel pkt pkt.length (pkt.length + 1) (pkt.length - tail.length) (by omega)
            (by omega)
          have hround := @feedPackets_succ pkt pkt.length (pkt.length - tail.length) (by omega)
          have hmem : Read.header (pkt.length - tail.length) ∈ reads pkt := by
            unfold reads
            rw [hread, readAfter, hfuel.2, hround.2]
            exact List.mem_append_right _ (List.mem_cons_self)
          exact Nat.lt_irrefl _ (hnothing.silent tail rfl _ hmem)
      . intro hshort
        have hend : ¬ pkt.length - tail.length + kHeaderLen ≤ pkt.length := by
          have hlt := hshort tail rfl
          omega
        rw [pushedAfter, (feedPackets_short hend).1, List.append_nil] at hfeed
        rw [readAfter, (feedPackets_short hend).2, List.append_nil] at hread
        refine ⟨hfeed, ?_⟩
        intro tail' htail' r hr
        unfold reads at hr
        rw [hread] at hr
        exact hbefore tail' htail' r hr

/--
A packet of one message whose length is zero. The bytes from this length on are taken for a header, and a message
is found behind it.
-/
def zeroLength : List UInt8 := [0, 0] ++ List.replicate 17 0 ++ [1, 0, 1, 65]

theorem zeroLength_injects
    : Parse (List.replicate 19 0 ++ [1] ++ zeroLength) [] (some zeroLength) ∧
        (feed (List.replicate 19 0 ++ [1] ++ zeroLength)).1 = [[0, 0, 0, 0, 0, 0, 0, 0, 0, 1, 65]] ∧
        ¬ InjectsNothing (List.replicate 19 0 ++ [1] ++ zeroLength) [] (some zeroLength) := by
  have hfeed : (feed (List.replicate 19 0 ++ [1] ++ zeroLength)).1 = [[0, 0, 0, 0, 0, 0, 0, 0, 0, 1, 65]] := by
    decide
  refine ⟨?_, hfeed, ?_⟩
  . have hparse := @Parse.bad (List.replicate 19 0 ++ [1]) zeroLength [] rfl (by decide) (Or.inr (Or.inl (by decide)))
    exact hparse
  . intro hnothing
    have hpushes := hnothing.pushes
    rw [hfeed] at hpushes
    cases hpushes

end MoldUdpUnpacker

end NebulaXTrader
