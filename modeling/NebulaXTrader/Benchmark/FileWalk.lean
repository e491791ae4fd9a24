import NebulaXTrader.Benchmark.PackingLoop
import NebulaXTrader.Lib.Deframer

/-!
This module contains the walk over a file of messages: it passes over a byte where no message can start, and it ends
where a message is not complete.
-/

namespace NebulaXTrader

open Positional (word bytes)

namespace FileWalk

def next (buf : List UInt8) : Option (Option ItchBody × List UInt8) :=
  if buf.length < 2 then
    none
  else
    let bodyLen := word (buf.take 2)
    if hbody : 1 ≤ bodyLen ∧ bodyLen ≤ 200 then
      if hfits : 2 + bodyLen ≤ buf.length then
        have hlen : ((buf.drop 2).take bodyLen).length = bodyLen := by
          rw [List.length_take, List.length_drop]
          omega
        some (some ⟨(buf.drop 2).take bodyLen, by rw [hlen]; exact hbody⟩, buf.drop (2 + bodyLen))
      else
        none
    else
      some (none, buf.drop 1)

variable {buf : List UInt8}

theorem next_bad (h2 : 2 ≤ buf.length) (hbody : ¬ (1 ≤ word (buf.take 2) ∧ word (buf.take 2) ≤ 200))
    : next buf = some (none, buf.drop 1) := by
  unfold next
  rw [if_neg (by omega)]
  exact dif_neg hbody

theorem next_cut (h2 : 2 ≤ buf.length) (hbody : 1 ≤ word (buf.take 2) ∧ word (buf.take 2) ≤ 200)
    (hcut : ¬ 2 + word (buf.take 2) ≤ buf.length) : next buf = none := by
  unfold next
  rw [if_neg (by omega)]
  dsimp only
  rw [dif_pos hbody, dif_neg hcut]

theorem next_end (h2 : buf.length < 2) : next buf = none := if_pos h2

theorem next_message (b : ItchBody) (more : List UInt8)
    : next (ReplayClient.message b ++ more) = some (some b, more) := by
  have hle := b.2
  have hhead : (ReplayClient.message b ++ more).take 2 = bytes 2 b.1.length := by
    unfold ReplayClient.message
    rw [List.append_assoc]
    exact List.take_left' (Positional.length_bytes 2 _)
  have hword : word ((ReplayClient.message b ++ more).take 2) = b.1.length := by
    rw [hhead, Positional.word_bytes]
    apply Nat.mod_eq_of_lt
    omega
  have hlength : (ReplayClient.message b ++ more).length = 2 + b.1.length + more.length := by
    rw [List.length_append, ReplayClient.length_message]
  have hbody : ((ReplayClient.message b ++ more).drop 2).take b.1.length = b.1 := by
    unfold ReplayClient.message
    rw [List.append_assoc, List.drop_left' (Positional.length_bytes 2 _)]
    exact List.take_left
  unfold next
  rw [if_neg (by omega)]
  dsimp only
  rw [dif_pos (by rw [hword]; exact hle), dif_pos (by rw [hword]; omega)]
  congr 2
  . apply congrArg some
    apply Subtype.ext
    dsimp only
    rw [hword]
    exact hbody
  . rw [hword]
    exact List.drop_left' (ReplayClient.length_message b)

theorem exists_message (h2 : 2 ≤ buf.length) (hbody : 1 ≤ word (buf.take 2) ∧ word (buf.take 2) ≤ 200)
    (hfits : 2 + word (buf.take 2) ≤ buf.length)
    : ∃ b : ItchBody, b.1.length = word (buf.take 2) ∧
        buf = ReplayClient.message b ++ buf.drop (2 + word (buf.take 2)) := by
  have hlen : ((buf.drop 2).take (word (buf.take 2))).length = word (buf.take 2) := by
    rw [List.length_take, List.length_drop]
    omega
  refine ⟨⟨(buf.drop 2).take (word (buf.take 2)), by rw [hlen]; exact hbody⟩, hlen, ?_⟩
  have hprefix : bytes 2 (word (buf.take 2)) = buf.take 2 := by
    have htwo : (buf.take 2).length = 2 := by
      rw [List.length_take]
      omega
    have hbytes := Positional.bytes_word (buf.take 2)
    rwa [htwo] at hbytes
  unfold ReplayClient.message
  dsimp only
  rw [hlen, hprefix, List.append_assoc, ← List.drop_drop, List.take_append_drop, List.take_append_drop]

inductive Cases (buf : List UInt8) : Prop where
  | short (h2 : buf.length < 2) (hnext : next buf = none)
  | bad (h2 : 2 ≤ buf.length) (hbody : ¬ (1 ≤ word (buf.take 2) ∧ word (buf.take 2) ≤ 200))
    (hnext : next buf = some (none, buf.drop 1))
  | cut (h2 : 2 ≤ buf.length) (hbody : 1 ≤ word (buf.take 2) ∧ word (buf.take 2) ≤ 200)
    (hcut : ¬ 2 + word (buf.take 2) ≤ buf.length) (hnext : next buf = none)
  | message (b : ItchBody) (rest : List UInt8) (hlen : word (buf.take 2) = b.1.length)
    (hbuf : buf = ReplayClient.message b ++ rest) (hnext : next buf = some (some b, rest))

theorem cases (buf : List UInt8) : Cases buf := by
  by_cases h2 : buf.length < 2
  . exact .short h2 (next_end h2)
  . have h2 : 2 ≤ buf.length := Nat.le_of_not_lt h2
    by_cases hbody : 1 ≤ word (buf.take 2) ∧ word (buf.take 2) ≤ 200
    . by_cases hfits : 2 + word (buf.take 2) ≤ buf.length
      . obtain ⟨b, hlen, hbuf⟩ := exists_message h2 hbody hfits
        apply Cases.message b (buf.drop (2 + word (buf.take 2))) hlen.symm hbuf
        have hnext := next_message b (buf.drop (2 + word (buf.take 2)))
        rwa [← hbuf] at hnext
      . exact .cut h2 hbody hfits (next_cut h2 hbody hfits)
    . exact .bad h2 hbody (next_bad h2 hbody)

def deframer : Deframer UInt8 ItchBody where
  next := next
  shrinks := by
    intro buf o rest h
    cases cases buf with
    | short h2 hnext =>
      rw [hnext] at h
      cases h
    | bad h2 hbody hnext =>
      rw [hnext] at h
      cases h
      rw [List.length_drop]
      omega
    | cut h2 hbody hcut hnext =>
      rw [hnext] at h
      cases h
    | message b rest' hlen hbuf hnext =>
      rw [hnext] at h
      cases h
      rw [hbuf, List.length_append, ReplayClient.length_message]
      omega
  extend := by
    intro buf o rest more h
    cases cases buf with
    | short h2 hnext =>
      rw [hnext] at h
      cases h
    | bad h2 hbody hnext =>
      rw [hnext] at h
      cases h
      have htake : (buf ++ more).take 2 = buf.take 2 := List.take_append_of_le_length h2
      have hdrop : (buf ++ more).drop 1 = buf.drop 1 ++ more := List.drop_append_of_le_length (by omega)
      rw [next_bad (by rw [List.length_append]; omega) (by rw [htake]; exact hbody), hdrop]
    | cut h2 hbody hcut hnext =>
      rw [hnext] at h
      cases h
    | message b rest' hlen hbuf hnext =>
      rw [hnext] at h
      cases h
      rw [hbuf, List.append_assoc]
      exact next_message b (rest ++ more)

/--
The bodies of the messages that the walk reaches, and what it leaves.
-/
def walk (file : List UInt8) : List ItchBody × List UInt8 := (deframer.drain (file.length + 1) file).getD ([], [])

/--
The walk has come to the start of a message that the file does not hold to its end.
-/
def CutShort (file : List UInt8) : Prop := 2 ≤ (walk file).2.length

instance (file : List UInt8) : Decidable (CutShort file) := inferInstanceAs (Decidable (_ ≤ _))

def listed (b : ItchBody) : Bool := decide (b.1.head? ≠ some PackingLoop.kTypeR)

/--
The messages that the walk reaches without those of the type R.
-/
def messages (file : List UInt8) : List ItchBody := (walk file).1.filter listed

theorem walk_of_drains {file : List UInt8} {r : List ItchBody × List UInt8} (h : deframer.Drains file r)
    : walk file = r := by
  unfold walk
  rw [h.drain_eq (Nat.lt_succ_self _)]
  rfl

end FileWalk

namespace ReplayClient

/--
The packets in which the loop sends groups of messages, the first of which has the number `firstSeq`.
-/
def sequenced (firstSeq : Nat) (groups : List (List ItchBody)) : List (List UInt8) :=
  match groups with
  | [] => []
  | g :: groups => (header firstSeq g.length ++ g.flatMap message) :: sequenced (firstSeq + g.length) groups

theorem sequenced_concat (firstSeq : Nat) (groups : List (List ItchBody)) (g : List ItchBody)
    : sequenced firstSeq (groups ++ [g]) =
        sequenced firstSeq groups ++ [header (firstSeq + groups.flatten.length) g.length ++ g.flatMap message] := by
  induction groups generalizing firstSeq with
  | nil => rfl
  | cons g' groups ih =>
    rw [List.cons_append, sequenced, ih, sequenced, List.cons_append, List.flatten_cons, List.length_append,
      Nat.add_assoc]

end ReplayClient

end NebulaXTrader
