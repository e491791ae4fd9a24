import NebulaXTrader.Lib.Positional

/-!
This module contains the model of `MoldUdpUnpacker::feed`, which takes packets apart and pushes their messages
into the byte ring, and of the packets that the replay client sends. Unpacking undoes packing.
-/

namespace NebulaXTrader

open Positional (bytes word length_bytes word_bytes)

def ItchBody := { b : List UInt8 // 1 ≤ b.length ∧ b.length ≤ 200 }

def ItchPacket := { p : List ItchBody // p.length ≤ 65535 }

namespace MoldUdpUnpacker

def kHeaderLen : Nat := 20

def be (n : Nat) (pkt : List UInt8) (off : Nat) : Nat := word ((pkt.drop off).take n)

def be64 := be 8

def be16 := be 2

/--
The loop over the `n` messages that a packet has left, the `i`-th one next: what it pushes, and the position
at which it ends.
-/
def feedMessages (pkt : List UInt8) (seq i n pos : Nat) : List (List UInt8) × Nat :=
  match n with
  | 0 => ([], pos)
  | n + 1 =>
    if pos + 2 > pkt.length then
      ([], pos)
    else
      let bodyLen := be16 pkt pos
      if bodyLen < 1 ∨ bodyLen > 200 then
        ([], pos)
      else
        let msgLen := 2 + bodyLen
        if pos + msgLen > pkt.length then
          ([], pos)
        else
          let msgSeq := (seq + i) % 2 ^ 64
          let msg := bytes 8 msgSeq ++ (pkt.drop pos).take 2 ++ (pkt.drop (pos + 2)).take bodyLen
          let (pushed, pos) := feedMessages pkt seq (i + 1) n (pos + msgLen)
          (msg :: pushed, pos)

/--
The loop over the packets. Every round takes a header off, so that the length of the input is fuel enough.
-/
def feedPackets (pkt : List UInt8) (fuel pos : Nat) : List (List UInt8) :=
  match fuel with
  | 0 => []
  | fuel + 1 =>
    if pos + kHeaderLen ≤ pkt.length then
      let seq := be64 pkt (pos + 10)
      let count := be16 pkt (pos + 18)
      let (pushed, pos) := feedMessages pkt seq 0 count (pos + kHeaderLen)
      pushed ++ feedPackets pkt fuel pos
    else
      []

def feed (pkt : List UInt8) : List (List UInt8) × Nat :=
  let pushed := feedPackets pkt pkt.length 0
  (pushed, pushed.length)

end MoldUdpUnpacker

namespace ReplayClient

def message (b : ItchBody) : List UInt8 := bytes 2 b.1.length ++ b.1

def header (firstSeq count : Nat) : List UInt8 := List.replicate 10 0 ++ bytes 8 firstSeq ++ bytes 2 count

def packet (firstSeq : Nat) (p : ItchPacket) : List UInt8 :=
  header firstSeq p.1.length ++ p.1.flatMap message

/--
Consecutive packets, the first of which starts with the message number `firstSeq`.
-/
def packets (firstSeq : Nat) (ps : List ItchPacket) : List UInt8 :=
  match ps with
  | [] => []
  | p :: ps => packet firstSeq p ++ packets (firstSeq + p.1.length) ps

def messagesOf (ps : List ItchPacket) : List ItchBody := ps.flatMap (·.1)

def datagrams (firstSeq : Nat) (groups : List (List ItchPacket)) : List (List UInt8) :=
  match groups with
  | [] => []
  | g :: groups => packets firstSeq g :: datagrams (firstSeq + (messagesOf g).length) groups

/--
The messages with their numbers, as they stand in the byte ring.
-/
def numbered (k : Nat) (bs : List ItchBody) : List (List UInt8) :=
  match bs with
  | [] => []
  | b :: bs => (bytes 8 k ++ bytes 2 b.1.length ++ b.1) :: numbered (k + 1) bs

theorem numbered_cons (k : Nat) (b : ItchBody) (bs : List ItchBody)
    : numbered k (b :: bs) = (bytes 8 k ++ bytes 2 b.1.length ++ b.1) :: numbered (k + 1) bs := rfl

theorem length_numbered (k : Nat) (bs : List ItchBody) : (numbered k bs).length = bs.length := by
  induction bs generalizing k with
  | nil => rfl
  | cons b bs ih =>
    rw [numbered_cons, List.length_cons, List.length_cons, ih]

theorem numbered_append (k : Nat) (bs bs' : List ItchBody)
    : numbered k (bs ++ bs') = numbered k bs ++ numbered (k + bs.length) bs' := by
  induction bs generalizing k with
  | nil => rfl
  | cons b bs ih =>
    have hcomm : k + 1 + bs.length = k + (bs.length + 1) := by omega
    rw [List.cons_append, numbered_cons, numbered_cons, List.cons_append, ih, List.length_cons, hcomm]

theorem length_message (b : ItchBody) : (message b).length = 2 + b.1.length := by
  unfold message
  rw [List.length_append, length_bytes]

theorem length_header (firstSeq count : Nat) : (header firstSeq count).length = 20 := by
  unfold header
  simp

end ReplayClient

namespace MoldUdpUnpacker

open ReplayClient

theorem be_of_drop {n : Nat} {pkt x rest : List UInt8} {off : Nat} (h : pkt.drop off = x ++ rest)
    (hx : x.length = n) : be n pkt off = word x := by
  unfold be
  rw [h, List.take_left' hx]

theorem length_of_drop {pkt x : List UInt8} {off : Nat} (h : pkt.drop off = x) (hoff : off ≤ pkt.length)
    : pkt.length = off + x.length := by
  have hlen := congrArg List.length h
  rw [List.length_drop] at hlen
  omega

theorem drop_of_drop {pkt x rest : List UInt8} {off n : Nat} (h : pkt.drop off = x ++ rest)
    (hx : x.length = n) : pkt.drop (off + n) = rest := by
  rw [← List.drop_drop, h, List.drop_left' hx]

theorem be16_message {pkt rest : List UInt8} {pos : Nat} (b : ItchBody) (h : pkt.drop pos = message b ++ rest)
    : be16 pkt pos = b.1.length := by
  have hb := b.2
  have hsplit : pkt.drop pos = bytes 2 b.1.length ++ (b.1 ++ rest) := by
    rw [h, message, List.append_assoc]
  unfold be16
  rw [be_of_drop hsplit (length_bytes 2 _), word_bytes]
  exact Nat.mod_eq_of_lt (by omega)

theorem feedMessages_message {pkt rest : List UInt8} {pos : Nat} (b : ItchBody)
    (h : pkt.drop pos = message b ++ rest) (hpos : pos ≤ pkt.length) (seq i n : Nat)
    : feedMessages pkt seq i (n + 1) pos =
      let r := feedMessages pkt seq (i + 1) n (pos + (message b).length)
      ((bytes 8 (seq + i) ++ bytes 2 b.1.length ++ b.1) :: r.1, r.2) := by
  have hb := b.2
  have hmessage := length_message b
  have hlen := length_of_drop h hpos
  rw [List.length_append] at hlen
  have hsplit : pkt.drop pos = bytes 2 b.1.length ++ (b.1 ++ rest) := by
    rw [h, message, List.append_assoc]
  have hbodyLen := be16_message b h
  have hseq : bytes 8 ((seq + i) % 2 ^ 64) = bytes 8 (seq + i) := by
    apply Positional.bytes_congr
    exact Nat.mod_mod _ _
  have hprefix : (pkt.drop pos).take 2 = bytes 2 b.1.length := by
    rw [hsplit, List.take_left' (length_bytes 2 _)]
  have hbody : (pkt.drop (pos + 2)).take b.1.length = b.1 := by
    rw [drop_of_drop hsplit (length_bytes 2 _), List.take_left' rfl]
  rw [hmessage]
  conv => lhs; unfold feedMessages
  rw [if_neg (by omega)]
  dsimp only
  rw [hbodyLen, if_neg (by omega), if_neg (by omega), hseq, hprefix, hbody]

theorem feedMessages_messages {pkt rest : List UInt8} {pos : Nat} (bs : List ItchBody)
    (h : pkt.drop pos = bs.flatMap message ++ rest) (hpos : pos ≤ pkt.length) (seq i : Nat)
    : feedMessages pkt seq i bs.length pos =
      (numbered (seq + i) bs, pos + (bs.flatMap message).length) := by
  induction bs generalizing pos i with
  | nil => rfl
  | cons b bs ih =>
    rw [List.flatMap_cons, List.append_assoc] at h
    have hlen := length_of_drop h hpos
    rw [List.length_append] at hlen
    have hrest := ih (drop_of_drop h rfl) (by omega) (i + 1)
    rw [List.length_cons, feedMessages_message b h hpos, hrest, List.flatMap_cons, List.length_append,
      numbered_cons]
    dsimp only
    rw [Nat.add_assoc, Nat.add_assoc]

theorem numbered_congr {k k' : Nat} (h : k % 2 ^ 64 = k' % 2 ^ 64) (bs : List ItchBody)
    : numbered k bs = numbered k' bs := by
  induction bs generalizing k k' with
  | nil => rfl
  | cons b bs ih =>
    have hnext : (k + 1) % 2 ^ 64 = (k' + 1) % 2 ^ 64 := by omega
    rw [numbered_cons, numbered_cons, Positional.bytes_congr h, ih hnext]

theorem feedPackets_packets {pkt : List UInt8} {pos : Nat} (k : Nat) (ps : List ItchPacket)
    (h : pkt.drop pos = packets k ps) (hpos : pos ≤ pkt.length) {fuel : Nat} (hfuel : pkt.length ≤ pos + fuel)
    : feedPackets pkt fuel pos = numbered k (messagesOf ps) := by
  induction ps generalizing k pos fuel with
  | nil =>
    have hlen := length_of_drop h hpos
    unfold packets at hlen
    cases fuel with
    | zero => rfl
    | succ fuel =>
      unfold feedPackets kHeaderLen
      rw [if_neg]
      . rfl
      . rw [List.length_nil] at hlen
        omega
  | cons p ps ih =>
    have hcount := p.2
    have hlen := length_of_drop h hpos
    unfold packets packet at h hlen
    rw [List.append_assoc] at h hlen
    rw [List.length_append, length_header, List.length_append] at hlen
    cases fuel with
    | zero => omega
    | succ fuel =>
      have hheader : pkt.drop (pos + 10) = bytes 8 k ++ (bytes 2 p.1.length ++
          (p.1.flatMap message ++ packets (k + p.1.length) ps)) := by
        apply drop_of_drop (x := List.replicate 10 0)
        . rw [h]
          simp only [header, List.append_assoc]
        . simp
      have hseq : be64 pkt (pos + 10) = k % 2 ^ 64 := by
        unfold be64
        rw [be_of_drop hheader (length_bytes 8 _)]
        exact word_bytes 8 k
      have hcount' : be16 pkt (pos + 18) = p.1.length := by
        have hdrop := drop_of_drop hheader (length_bytes 8 _)
        unfold be16
        rw [be_of_drop hdrop (length_bytes 2 _), word_bytes]
        exact Nat.mod_eq_of_lt (by omega)
      have hmessages := feedMessages_messages p.1 (drop_of_drop h (length_header _ _)) (by omega) (k % 2 ^ 64) 0
      have hnext := drop_of_drop (drop_of_drop h (length_header _ _)) rfl
      have hfuel' : pkt.length ≤ pos + 20 + (p.1.flatMap message).length + fuel := by omega
      have hrest := ih (k + p.1.length) hnext (by omega) hfuel'
      have hpackets : messagesOf (p :: ps) = p.1 ++ messagesOf ps := rfl
      unfold feedPackets kHeaderLen
      rw [if_pos (by omega)]
      dsimp only
      rw [hseq, hcount', hmessages]
      dsimp only
      rw [hrest, hpackets, numbered_append]
      apply congrArg (· ++ _)
      apply numbered_congr
      rw [Nat.add_zero, Nat.mod_mod]

theorem feed_packets (k : Nat) (ps : List ItchPacket)
    : feed (packets k ps) = (numbered k (messagesOf ps), (messagesOf ps).length) := by
  have hfuel : (packets k ps).length ≤ 0 + (packets k ps).length := by omega
  have hfeed := feedPackets_packets k ps List.drop_zero (Nat.zero_le _) hfuel
  unfold feed
  dsimp only
  rw [hfeed, length_numbered]

/--
However the messages are put into packets and the packets into datagrams, the messages are pushed in order
with their numbers, and each call returns how many it pushed.
-/
theorem feed_datagrams (groups : List (List ItchPacket))
    : (datagrams 0 groups).flatMap (fun pkt => (feed pkt).1) = numbered 0 (groups.flatMap messagesOf) ∧
        (datagrams 0 groups).map (fun pkt => (feed pkt).2) =
          groups.map (fun g => (messagesOf g).length) := by
  generalize 0 = k
  induction groups generalizing k with
  | nil => exact ⟨rfl, rfl⟩
  | cons g groups ih =>
    have hrest := ih (k + (messagesOf g).length)
    unfold datagrams
    constructor
    . rw [List.flatMap_cons, List.flatMap_cons, numbered_append, hrest.1, feed_packets]
    . rw [List.map_cons, List.map_cons, hrest.2, feed_packets]

end MoldUdpUnpacker

end NebulaXTrader
