import NebulaXTrader.Lib.Positional

/-!
This module contains the messages that `MoldUdpUnpacker` puts into the byte ring: `[seq 8][len 2][body]`.
-/

namespace NebulaXTrader

open Positional (bytes)

/--
The unpacker passes on only bodies of 1 to 200 bytes.
-/
structure Message where
  seq : Nat
  body : List UInt8
  seq_lt : seq < 2 ^ 64
  body_pos : 0 < body.length
  body_le : body.length ≤ 200
  deriving DecidableEq

namespace Message

def frame (m : Message) : List UInt8 := bytes 8 m.seq ++ bytes 2 m.body.length ++ m.body

theorem length_frame (m : Message) : m.frame.length = 10 + m.body.length := by
  unfold frame
  simp only [List.length_append, Positional.length_bytes]

theorem take_frame (m : Message) : m.frame.take 8 = bytes 8 m.seq := by
  unfold frame
  rw [List.append_assoc]
  exact List.take_left' (Positional.length_bytes 8 m.seq)

theorem drop_take_frame (m : Message) : (m.frame.take 10).drop 8 = bytes 2 m.body.length := by
  have hhead : (bytes 8 m.seq ++ bytes 2 m.body.length).length = 10 := by simp
  unfold frame
  rw [List.take_left' hhead]
  exact List.drop_left' (Positional.length_bytes 8 m.seq)

theorem drop_frame (m : Message) : m.frame.drop 10 = m.body := by
  unfold frame
  apply List.drop_left'
  simp

theorem word_seq (m : Message) : Positional.word (bytes 8 m.seq) = m.seq := by
  rw [Positional.word_bytes]
  exact Nat.mod_eq_of_lt m.seq_lt

theorem word_bodyLen (m : Message) : Positional.word (bytes 2 m.body.length) = m.body.length := by
  have hle := m.body_le
  rw [Positional.word_bytes]
  apply Nat.mod_eq_of_lt
  omega

end Message

end NebulaXTrader
